import Mathlib.Data.Option.Basic
import Ratchet.Proofs.Json.Number

/-!
# Tokens read back

Every character of a string is written so that it is read back as one piece, which spells it
(`exists_piece`).  So what is written between two quotes is read back character by character.

A number or a word is read as long as it goes on, so it is read back where something else follows
(`Token.Ends`).  In a list of tokens in which that is so throughout (`Separated`), all of them are
read back from the characters that they are written with.

## Main result

* `tokens?_chars`: separated tokens are the tokens of their text.
-/

namespace Ratchet.Json

variable {rest : List Char}

/-! ## Strings -/

theorem hexValue?_hexDigit : ∀ n < 16, hexValue? (hexDigit n) = some n := by decide

theorem hexUnit?_hexDigit {n : Nat} (h : n < 256) :
    hexUnit? '0' '0' (hexDigit (n / 16)) (hexDigit (n % 16)) = some n := by
  have hhigh := hexValue?_hexDigit (n / 16) (by omega)
  have hlow := hexValue?_hexDigit (n % 16) (by omega)
  have hzero : hexValue? '0' = some 0 := rfl
  simp only [hexUnit?, hhigh, hlow, hzero, Option.bind_eq_bind, Option.bind_some, Option.pure_def]
  congr 1
  omega

theorem pieces?_unescape {e c : Char} (h : unescape? e = some c) (cs : List Char) :
    pieces? ('\\' :: e :: cs) = (pieces? cs).map fun r => (.char c :: r.1, r.2) := by
  have hne : e ≠ 'u' := by
    rintro rfl
    cases h
  rw [pieces?.eq_4 e cs fun _ _ _ _ _ he _ => hne he, h]
  cases pieces? cs <;> rfl

theorem pieces?_unit {a b c d : Char} {n : Nat} (h : hexUnit? a b c d = some n) (cs : List Char) :
    pieces? ('\\' :: 'u' :: a :: b :: c :: d :: cs) =
      (pieces? cs).map fun r => (.unit n :: r.1, r.2) := by
  rw [pieces?, h]
  cases pieces? cs <;> rfl

theorem pieces?_char {c : Char} (hquote : c ≠ '"') (hslash : c ≠ '\\') (h : ' ' ≤ c)
    (cs : List Char) : pieces? (c :: cs) = (pieces? cs).map fun r => (.char c :: r.1, r.2) := by
  have hguard : (guard (' ' ≤ c ∧ c ≠ '\\') : Option Unit) = some () := if_pos ⟨h, hslash⟩
  rw [pieces?.eq_5 c cs hquote (fun _ _ _ _ _ hc => absurd hc hslash)
    (fun _ _ hc => absurd hc hslash), hguard]
  cases pieces? cs <;> rfl

theorem assemble?_unit {n : Nat} (h : n < 0xD800) (ps : List Piece) :
    assemble? (.unit n :: ps) = (assemble? ps).map (Char.ofNat n :: ·) := by
  have hhigh : isHighSurrogate n = false := by
    simp only [isHighSurrogate, Bool.and_eq_false_iff, decide_eq_false_iff_not]
    omega
  have hlow : isLowSurrogate n = false := by
    simp only [isLowSurrogate, Bool.and_eq_false_iff, decide_eq_false_iff_not]
    omega
  rw [assemble?.eq_def]
  dsimp only
  rw [hhigh, hlow]
  rfl

/-- What a character is written as is read back as one piece, and the piece spells it. -/
theorem exists_piece (c : Char) : ∃ p,
    (∀ cs, pieces? (escape c ++ cs) = (pieces? cs).map fun r => (p :: r.1, r.2)) ∧
    ∀ ps, assemble? (p :: ps) = (assemble? ps).map (c :: ·) := by
  unfold escape
  split
  case h_8 _ hquote hslash _ _ _ _ _ =>
    split
    · next hcontrol =>
        have hlt : c.toNat < 32 := UInt32.lt_iff_toNat_lt.1 hcontrol
        refine ⟨.unit c.toNat, pieces?_unit (hexUnit?_hexDigit (Nat.lt_trans hlt (by decide))), ?_⟩
        intro ps
        rw [assemble?_unit (by omega), Char.ofNat_toNat]
    · next hprintable =>
        exact ⟨.char c, pieces?_char hquote hslash (Char.not_lt.1 hprintable), fun _ => rfl⟩
  -- the characters with an escape of their own
  all_goals exact ⟨.char _, pieces?_unescape rfl, fun _ => rfl⟩

/-- A quoted string is read back up to the quote that closes it. -/
theorem string?_flatMap_escape (cs rest : List Char) :
    string? (cs.flatMap escape ++ '"' :: rest) = some (.string (String.ofList cs), rest) := by
  have hpieces : ∃ ps, pieces? (cs.flatMap escape ++ '"' :: rest) = some (ps, rest) ∧
      assemble? ps = some cs := by
    induction cs with
    | nil => exact ⟨[], rfl, rfl⟩
    | cons c cs ih =>
        obtain ⟨ps, hread, hspell⟩ := ih
        obtain ⟨p, hp, hc⟩ := exists_piece c
        refine ⟨p :: ps, ?_, ?_⟩
        · rw [List.flatMap_cons, List.append_assoc, hp, hread]
          rfl
        · rw [hc, hspell]
          rfl
  obtain ⟨ps, hread, hspell⟩ := hpieces
  have htoken : stringToken ps = .string (String.ofList cs) := by
    unfold stringToken
    rw [hspell]
  unfold string?
  rw [hread, ← htoken]
  rfl

/-! ## Tokens -/

/-- The characters that a token is written with. -/
def Token.chars (t : Token) : List Char := t.text.toList

/-- The token ends where the given text goes on: a number or a word is not read further. -/
def Token.Ends (rest : List Char) : Token → Prop
  | .number _ => Stops isNumeric rest
  | .null | .bool _ => Stops Char.isAlpha rest
  | _ => True

theorem token?_word {c : Char} {cs : List Char} {t : Token} (hpunctuation : punctuation? c = none)
    (hquote : c ≠ '"') (hnumber : (c.isDigit || c == '-') = false)
    (halpha : cs.all Char.isAlpha = true) (hword : word? (c :: cs) = some t)
    (hrest : Stops Char.isAlpha rest) : token? c (cs ++ rest) = some (t, rest) := by
  have halpha := List.all_eq_true.1 halpha
  unfold token?
  rw [hpunctuation]
  dsimp only
  rw [if_neg hquote, hnumber, takeWhile_append halpha hrest, dropWhile_append halpha hrest, hword]
  rfl

theorem not_special_of_number {c : Char} (h : (c.isDigit || c == '-') = true) :
    isBlank c = false ∧ punctuation? c = none ∧ c ≠ '"' := by
  refine ⟨?_, ?_, ?_⟩
  · by_contra hblank
    simp only [isBlank, Bool.not_eq_false, Bool.or_eq_true, beq_iff_eq] at hblank
    rcases hblank with ((rfl | rfl) | rfl) | rfl <;> cases h
  · unfold punctuation?
    split <;> first | cases h | rfl
  · rintro rfl
    cases h

theorem token?_number {n : Number} {c : Char} {cs : List Char} (hcons : n.text.toList = c :: cs)
    (hfirst : (c.isDigit || c == '-') = true) (hrest : Stops isNumeric rest) :
    token? c (cs ++ rest) = some (.number n, rest) := by
  obtain ⟨_, hpunctuation, hquote⟩ := not_special_of_number hfirst
  have hnumeric : ∀ x ∈ cs, isNumeric x = true := fun x hx =>
    n.isNumeric_of_mem_text (hcons ▸ List.mem_cons_of_mem c hx)
  have hread := n.ofChars?_text
  rw [hcons] at hread
  unfold token?
  rw [hpunctuation]
  dsimp only
  rw [if_neg hquote, if_pos hfirst, takeWhile_append hnumeric hrest,
    dropWhile_append hnumeric hrest, hread]
  rfl

/-- The token is the first one of a text that begins with what it is written with. -/
theorem token?_chars {t : Token} (h : t.Ends rest) : ∃ c cs,
    t.chars = c :: cs ∧ isBlank c = false ∧ token? c (cs ++ rest) = some (t, rest) := by
  cases t with
  | openArray | closeArray | openObject | closeObject | comma | colon => exact ⟨_, _, rfl, rfl, rfl⟩
  | null =>
      exact ⟨'n', ['u', 'l', 'l'], rfl, rfl, token?_word rfl (by decide) rfl rfl rfl h⟩
  | bool b =>
      cases b with
      | true =>
          exact ⟨'t', ['r', 'u', 'e'], rfl, rfl, token?_word rfl (by decide) rfl rfl rfl h⟩
      | false =>
          exact ⟨'f', ['a', 'l', 's', 'e'], rfl, rfl, token?_word rfl (by decide) rfl rfl rfl h⟩
  | number n =>
      obtain ⟨c, cs, hcons, hfirst⟩ := n.exists_text_eq_cons
      exact ⟨c, cs, hcons, (not_special_of_number hfirst).1, token?_number hcons hfirst h⟩
  | string s =>
      refine ⟨'"', s.toList.flatMap escape ++ ['"'], String.toList_ofList, rfl, ?_⟩
      change string? _ = _
      rw [List.append_assoc]
      exact (string?_flatMap_escape s.toList rest).trans (by rw [String.ofList_toList])
  | unpaired => exact ⟨'"', ['\\', 'u', 'd', '8', '0', '0', '"'], rfl, rfl, rfl⟩

/-- No token of a list is read on into the text of the next one. -/
def Separated : List Token → Prop
  | [] => True
  | t :: ts => t.Ends (ts.flatMap Token.chars) ∧ Separated ts

/-- Separated tokens are the tokens of their text. -/
theorem tokens?_chars {ts : List Token} (h : Separated ts) {fuel : Nat}
    (hfuel : (ts.flatMap Token.chars).length ≤ fuel) :
    tokens? fuel (ts.flatMap Token.chars) = some ts := by
  induction ts generalizing fuel with
  | nil => cases fuel <;> rfl
  | cons t ts ih =>
      obtain ⟨c, cs, hcons, hblank, htoken⟩ := token?_chars h.1
      rw [List.flatMap_cons, hcons, List.cons_append] at hfuel ⊢
      cases fuel with
      | zero => cases hfuel
      | succ fuel =>
          rw [List.length_cons, List.length_append] at hfuel
          rw [tokens?, hblank, htoken]
          change (tokens? fuel (ts.flatMap Token.chars)).bind _ = _
          rw [ih h.2 (by omega)]
          rfl

end Ratchet.Json
