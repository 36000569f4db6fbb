import Ratchet.Json.Basic
import Ratchet.Proofs.Json.Token

/-!
# Values read back

The text of a value consists of the tokens of the value.  A number or a word in it is always
followed by punctuation, or by nothing, so the text is cut into these tokens again
(`separated_tokens`).  The machine that reads tokens then builds the value: started where a value is
due, it comes to have that value complete, with the same frames open (`read?_tokens`).

Both are inductions over the value, together with the elements and the members that follow the first
one of an array or an object.

## Main result

* `parse?_compact`: the compact text of a value stands for the value.
-/

namespace Ratchet.Json

/-! ## The tokens of a value and what follows them -/

section Append

variable {key : String} {value e : Json} {es : List Json} {ms : List (String × Json)}
  {ts : List Token}

theorem tokens_array_append : (array (e :: es)).tokens ++ ts =
    .openArray :: (e.tokens ++ (tokensElements es ++ ts)) := by
  rw [tokens, List.cons_append, List.cons_append, List.append_assoc]

theorem tokens_object_append : (object ((key, value) :: ms)).tokens ++ ts =
    .openObject :: .string key :: .colon :: (value.tokens ++ (tokensMembers ms ++ ts)) := by
  simp only [tokens, List.cons_append, List.append_assoc]

theorem tokensElements_append : tokensElements (e :: es) ++ ts =
    .comma :: (e.tokens ++ (tokensElements es ++ ts)) := by
  rw [tokensElements, List.cons_append, List.cons_append, List.append_assoc]

theorem tokensMembers_append : tokensMembers ((key, value) :: ms) ++ ts =
    .comma :: .string key :: .colon :: (value.tokens ++ (tokensMembers ms ++ ts)) := by
  simp only [tokensMembers, List.cons_append, List.append_assoc]

end Append

/-! ## Cutting the text of a value -/

/-- The tokens begin with punctuation, if there are any: no number or word goes on into them. -/
def Breaks (ts : List Token) : Prop :=
  Stops isNumeric (ts.flatMap Token.chars) ∧ Stops Char.isAlpha (ts.flatMap Token.chars)

variable {ts : List Token}

theorem Breaks.ends (h : Breaks ts) (t : Token) : t.Ends (ts.flatMap Token.chars) := by
  cases t with
  | number n => exact h.1
  | null | bool b => exact h.2
  | _ => trivial

theorem breaks_nil : Breaks [] := ⟨.nil, .nil⟩

theorem breaks_tokensElements (es : List Json) : Breaks (tokensElements es ++ ts) := by
  cases es <;> exact ⟨.cons rfl, .cons rfl⟩

theorem breaks_tokensMembers (ms : List (String × Json)) : Breaks (tokensMembers ms ++ ts) := by
  cases ms <;> exact ⟨.cons rfl, .cons rfl⟩

mutual

theorem separated_tokens : ∀ (j : Json) {ts : List Token}, Separated ts → Breaks ts →
    Separated (j.tokens ++ ts)
  | null, _, h, hb | bool _, _, h, hb | number _, _, h, hb | string _, _, h, hb
  | unreadable, _, h, hb => ⟨hb.ends _, h⟩
  | array [], _, h, _ | object [], _, h, _ => ⟨trivial, trivial, h⟩
  | array (e :: es), _, h, _ => by
      rw [tokens_array_append]
      exact ⟨trivial, separated_tokens e (separated_tokensElements es h) (breaks_tokensElements es)⟩
  | object ((_, value) :: ms), _, h, _ => by
      rw [tokens_object_append]
      exact ⟨trivial, trivial, trivial,
        separated_tokens value (separated_tokensMembers ms h) (breaks_tokensMembers ms)⟩

theorem separated_tokensElements : ∀ (es : List Json) {ts : List Token}, Separated ts →
    Separated (tokensElements es ++ ts)
  | [], _, h => ⟨trivial, h⟩
  | e :: es, _, h => by
      rw [tokensElements_append]
      exact ⟨trivial, separated_tokens e (separated_tokensElements es h) (breaks_tokensElements es)⟩

theorem separated_tokensMembers : ∀ (ms : List (String × Json)) {ts : List Token}, Separated ts →
    Separated (tokensMembers ms ++ ts)
  | [], _, h => ⟨trivial, h⟩
  | (_, value) :: ms, _, h => by
      rw [tokensMembers_append]
      exact ⟨trivial, trivial, trivial,
        separated_tokens value (separated_tokensMembers ms h) (breaks_tokensMembers ms)⟩

end

theorem toList_foldl_text (ts : List Token) (s : String) :
    (ts.foldl (fun text t => text ++ t.text) s).toList = s.toList ++ ts.flatMap Token.chars := by
  induction ts generalizing s with
  | nil => simp
  | cons t ts ih => simp [ih, Token.chars]

theorem tokenize?_compact (j : Json) : tokenize? j.compact = some j.tokens := by
  have hlist : j.compact.toList = j.tokens.flatMap Token.chars := toList_foldl_text j.tokens ""
  have hseparated : Separated (j.tokens ++ []) := separated_tokens j trivial breaks_nil
  rw [List.append_nil] at hseparated
  rw [tokenize?, hlist]
  refine tokens?_chars hseparated ?_
  rw [← hlist, String.length_toList]

/-! ## Reading the tokens of a value -/

/-- Reads a list of tokens. -/
def State.read? (s : State) (ts : List Token) : Option State := ts.foldlM State.step? s

theorem State.read?_cons {s s' : State} {t : Token} (h : s.step? t = some s') :
    s.read? (t :: ts) = s'.read? ts := by
  rw [read?, List.foldlM_cons, h]
  rfl

theorem exists_tokens_eq_cons (j : Json) : ∃ t ts, j.tokens = t :: ts ∧ t ≠ .closeArray := by
  cases j with
  | array es =>
      cases es with
      | nil => exact ⟨_, _, rfl, nofun⟩
      | cons e es => exact ⟨.openArray, e.tokens ++ tokensElements es, by rw [tokens]; rfl, nofun⟩
  | object ms =>
      cases ms with
      | nil => exact ⟨_, _, rfl, nofun⟩
      | cons m ms => exact ⟨.openObject, _, by rw [tokens]; rfl, nofun⟩
  | _ => exact ⟨_, _, rfl, nofun⟩

/-- The first element of an array is read like any value. -/
theorem read?_arrayOpened (j : Json) (frames : List Frame) (ts : List Token) :
    (State.arrayOpened frames).read? (j.tokens ++ ts) =
      (State.value (.array [] :: frames)).read? (j.tokens ++ ts) := by
  obtain ⟨t, rest, hcons, hne⟩ := exists_tokens_eq_cons j
  have hstep : (State.arrayOpened frames).step? t =
      (State.value (.array [] :: frames)).step? t := by
    cases t <;> first | rfl | exact absurd rfl hne
  rw [hcons, List.cons_append, State.read?, State.read?, List.foldlM_cons, List.foldlM_cons, hstep]

/-- What every element of a list gives back, the list gives back. -/
theorem mapM_map_eq_some {α β γ : Type} {f : α → β} {g : β → Option γ} {h : α → γ} {as : List α}
    (hg : ∀ a ∈ as, g (f a) = some (h a)) : (as.map f).mapM g = some (as.map h) := by
  induction as with
  | nil => rfl
  | cons a as ih =>
      obtain ⟨ha, has⟩ := List.forall_mem_cons.1 hg
      rw [List.map_cons, List.mapM_cons, ha, ih has]
      rfl

/-- An object whose keys can all be read can be read. -/
theorem ofMembers_some (ms : List (String × Json)) :
    ofMembers (ms.map fun m => (some m.1, m.2)) = .object ms := by
  have hall : (ms.map fun m => (some m.1, m.2)).mapM
      (fun m : Key × Json => m.1.map fun name => (name, m.2)) = some (ms.map id) :=
    mapM_map_eq_some fun _ _ => rfl
  rw [ofMembers, hall, List.map_id]

mutual

/-- Where a value is due, the tokens of a value complete it. -/
theorem read?_tokens : ∀ (j : Json) (frames : List Frame) (ts : List Token),
    (State.value frames).read? (j.tokens ++ ts) = (State.complete j frames).read? ts
  | null, _, _ | bool _, _, _ | number _, _, _ | string _, _, _ | unreadable, _, _ =>
      State.read?_cons rfl
  | array [], _, _ | object [], _, _ => (State.read?_cons rfl).trans (State.read?_cons rfl)
  | array (e :: es), frames, ts => by
      have hopen : (State.value frames).step? .openArray = some (.arrayOpened frames) := rfl
      rw [tokens_array_append, State.read?_cons hopen, read?_arrayOpened, read?_tokens e,
        read?_tokensElements es]
      rfl
  | object ((key, value) :: ms), frames, ts => by
      rw [tokens_object_append, State.read?_cons rfl, State.read?_cons rfl, State.read?_cons rfl,
        read?_tokens value, read?_tokensMembers ms]
      exact congrArg (fun j => (State.complete j frames).read? ts)
        (ofMembers_some ((key, value) :: ms))

/-- The elements that follow complete the array they belong to. -/
theorem read?_tokensElements : ∀ (es : List Json) (v : Json) (vs : List Json) (frames : List Frame)
    (ts : List Token), (State.complete v (.array vs :: frames)).read? (tokensElements es ++ ts) =
      (State.complete (.array ((v :: vs).reverse ++ es)) frames).read? ts
  | [], v, vs, frames, ts => by
      rw [List.append_nil]
      exact State.read?_cons rfl
  | e :: es, v, vs, frames, ts => by
      rw [tokensElements_append, State.read?_cons rfl, read?_tokens e, read?_tokensElements es]
      simp

/-- The members that follow complete the object they belong to. -/
theorem read?_tokensMembers : ∀ (ms : List (String × Json)) (v : Json) (name : Key)
    (ns : List (Key × Json)) (frames : List Frame) (ts : List Token),
    (State.complete v (.object ns name :: frames)).read? (tokensMembers ms ++ ts) =
      (State.complete (ofMembers (((name, v) :: ns).reverse ++ ms.map fun m => (some m.1, m.2)))
        frames).read? ts
  | [], v, name, ns, frames, ts => by
      rw [List.map_nil, List.append_nil]
      exact State.read?_cons rfl
  | (key, value) :: ms, v, name, ns, frames, ts => by
      rw [tokensMembers_append, State.read?_cons rfl, State.read?_cons rfl, State.read?_cons rfl,
        read?_tokens value, read?_tokensMembers ms]
      simp

end

/-- The compact text of a value stands for the value. -/
theorem parse?_compact (j : Json) : parse? j.compact = some j := by
  have hread : j.tokens.foldlM State.step? (.value []) = some (.complete j []) := by
    have htokens := read?_tokens j [] []
    rwa [List.append_nil] at htokens
  rw [parse?, tokenize?_compact]
  change ofTokens? j.tokens = some j
  rw [ofTokens?, hread]

end Ratchet.Json
