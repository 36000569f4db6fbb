import Mathlib.Data.List.TakeWhile
import Ratchet.Json.Token

/-!
# Number literals read back

The literal of a number is its digits, with a sign in front and an exponent behind if the number has
them.  Digits are read as long as there are any, so a run of digits is read as a whole whenever what
follows cannot be read on (`Stops`); with that, each part of a literal is read as it was written.

## Main result

* `Number.ofChars?_text`: the literal of a number stands for the number.
-/

namespace Ratchet.Json

/-! ## Runs of characters -/

section Runs

variable {α : Type} {p : α → Bool} {xs rest : List α}

/-- A run of elements with the property goes no further: the list ends, or it goes on with an
element that does not have it. -/
def Stops (p : α → Bool) (rest : List α) : Prop := ∀ x ∈ rest.head?, p x = false

theorem Stops.nil : Stops p [] := nofun

theorem Stops.cons {x : α} (h : p x = false) : Stops p (x :: rest) := by
  rintro y ⟨⟩
  exact h

theorem takeWhile_append (hxs : ∀ x ∈ xs, p x = true) (hrest : Stops p rest) :
    (xs ++ rest).takeWhile p = xs := by
  rw [List.takeWhile_append_of_pos hxs]
  cases rest with
  | nil => simp
  | cons x rest => rw [List.takeWhile_cons_of_neg (by simp [hrest x rfl]), List.append_nil]

theorem dropWhile_append (hxs : ∀ x ∈ xs, p x = true) (hrest : Stops p rest) :
    (xs ++ rest).dropWhile p = rest := by
  rw [List.dropWhile_append_of_pos hxs]
  cases rest with
  | nil => rfl
  | cons x rest => rw [List.dropWhile_cons_of_neg (by simp [hrest x rfl])]

end Runs

namespace Number

variable {n : Nat} {negative : Bool} {rest : List Char}

/-! ## Digits -/

/-- The decimal digits of a number. -/
abbrev digits (n : Nat) : List Char := Nat.toDigits 10 n

theorem isDigit_of_mem_digits {c : Char} (h : c ∈ digits n) : c.isDigit = true :=
  Nat.isDigit_of_mem_toDigits (by decide) (by decide) h

theorem exists_digits_eq_cons (n : Nat) :
    ∃ c cs, digits n = c :: cs ∧ c.isDigit = true ∧ (c = '0' → n = 0 ∧ cs = []) := by
  induction n using Nat.strongRecOn with
  | ind n ih =>
      by_cases hlt : n < 10
      · have hsingle : digits n = [n.digitChar] := Nat.toDigits_of_lt_base hlt
        have hzero : ∀ m < 10, m.digitChar = '0' → m = 0 := by decide
        refine ⟨n.digitChar, [], hsingle, ?_, fun hc => ⟨hzero n hlt hc, rfl⟩⟩
        exact isDigit_of_mem_digits (n := n) (hsingle ▸ List.mem_cons_self)
      · obtain ⟨c, cs, hcons, hdigit, hzero⟩ := ih (n / 10) (by omega)
        refine ⟨c, cs ++ [(n % 10).digitChar], ?_, hdigit, ?_⟩
        · have hlong : digits n = digits (n / 10) ++ [(n % 10).digitChar] :=
            Nat.toDigits_of_base_le (by decide) (by omega)
          rw [hlong, hcons, List.cons_append]
        · intro hc
          have := (hzero hc).1
          omega

theorem isWhole_digits (n : Nat) : isWhole (digits n) = true := by
  obtain ⟨c, cs, hcons, _, hzero⟩ := exists_digits_eq_cons n
  rw [hcons]
  by_cases hc : c = '0'
  · rw [hc, (hzero hc).2]
    rfl
  · unfold isWhole
    split <;> simp_all

theorem digitsValue_digits (n : Nat) : digitsValue (digits n) = n := Nat.ofDigitChars_ten_toDigits

/-! ## Parts of a literal -/

theorem toList_toString_ofNat (n : Nat) : (toString (n : Int)).toList = digits n := by
  change (n : Int).repr.toList = _
  rw [Int.repr_eq_if, if_pos (Int.natCast_nonneg n), Int.toNat_natCast, Nat.toList_repr]

theorem toList_toString_neg (h : 0 < n) : (toString (-n : Int)).toList = '-' :: digits n := by
  change (-n : Int).repr.toList = _
  rw [Int.repr_eq_if, if_neg (by omega), String.toList_append, Int.neg_neg, Int.toNat_natCast,
    Nat.toList_repr]
  rfl

theorem toList_toString_cases (e : Int) : (∃ n : Nat, e = n ∧ (toString e).toList = digits n) ∨
    ∃ n : Nat, 0 < n ∧ e = -n ∧ (toString e).toList = '-' :: digits n := by
  obtain ⟨n, rfl | ⟨hpos, rfl⟩⟩ : ∃ n : Nat, e = n ∨ 0 < n ∧ e = -n := ⟨e.natAbs, by omega⟩
  · exact .inl ⟨n, rfl, toList_toString_ofNat n⟩
  · exact .inr ⟨n, hpos, rfl, toList_toString_neg hpos⟩

theorem exponentDigits?_digits (n : Nat) : exponentDigits? (digits n) = some (n : Int) := by
  have hall : (digits n).all Char.isDigit = true :=
    List.all_eq_true.2 fun _ => isDigit_of_mem_digits
  have hne : (digits n).isEmpty = false := by
    obtain ⟨c, cs, hcons, _⟩ := exists_digits_eq_cons n
    rw [hcons]
    rfl
  rw [exponentDigits?, hall, hne, digitsValue_digits]
  rfl

theorem exponent?_toString (e : Int) : exponent? ('e' :: (toString e).toList) = some (some e) := by
  obtain ⟨n, rfl, htext⟩ | ⟨n, _, rfl, htext⟩ := toList_toString_cases e
  · obtain ⟨c, cs, hcons, hdigit, _⟩ := exists_digits_eq_cons n
    have hexponent := exponentDigits?_digits n
    rw [hcons] at hexponent
    rw [htext, hcons]
    unfold exponent?
    dsimp only
    rw [if_pos (.inl rfl)]
    split
    · next heq =>
        cases heq
        cases hdigit
    · next heq =>
        cases heq
        cases hdigit
    · rw [hexponent]
      rfl
  · rw [htext]
    change (exponentDigits? (digits n)).map (fun e => some (-e)) = _
    rw [exponentDigits?_digits]
    rfl

theorem unsigned?_digits (negative : Bool) (n : Nat) : unsigned? negative (digits n) =
    some (if !negative then .int n else if n = 0 then .decimal true 0 0 else .int (-n)) := by
  have htake : (digits n).takeWhile Char.isDigit = digits n :=
    List.takeWhile_eq_self_iff.2 fun _ => isDigit_of_mem_digits
  have hdrop : (digits n).dropWhile Char.isDigit = [] :=
    List.dropWhile_eq_nil_iff.2 fun _ => isDigit_of_mem_digits
  unfold unsigned?
  rw [htake, hdrop]
  dsimp only
  rw [isWhole_digits, digitsValue_digits]
  rfl

theorem unsigned?_exponent (negative : Bool) (n : Nat) (e : Int) :
    unsigned? negative (digits n ++ 'e' :: (toString e).toList) = some (.decimal negative n e) := by
  have hstops : Stops Char.isDigit ('e' :: (toString e).toList) := .cons (by decide)
  have htake := takeWhile_append (fun _ => isDigit_of_mem_digits (n := n)) hstops
  have hdrop := dropWhile_append (fun _ => isDigit_of_mem_digits (n := n)) hstops
  have hfraction : fraction? ('e' :: (toString e).toList) = some ([], 'e' :: (toString e).toList) :=
    rfl
  unfold unsigned?
  rw [htake, hdrop]
  dsimp only
  rw [isWhole_digits, hfraction]
  change (exponent? ('e' :: (toString e).toList)).bind _ = _
  rw [exponent?_toString]
  simp [digitsValue_digits]

theorem ofChars?_digits (n : Nat) (rest : List Char) :
    ofChars? (digits n ++ rest) = unsigned? false (digits n ++ rest) := by
  obtain ⟨c, cs, hcons, hdigit, _⟩ := exists_digits_eq_cons n
  rw [hcons, List.cons_append]
  unfold ofChars?
  split
  · next heq =>
      cases heq
      cases hdigit
  · rfl

/-! ## Literals -/

theorem toList_text_decimal (negative : Bool) (n : Nat) (e : Int) :
    (decimal negative n e).text.toList =
      (if negative then ['-'] else []) ++ (digits n ++ 'e' :: (toString e).toList) := by
  have hdigits : (toString n).toList = digits n := Nat.toList_repr
  simp only [text, String.toList_append, hdigits]
  cases negative <;> simp [toString]

/-- The literal of a number stands for the number. -/
theorem ofChars?_text (n : Number) : ofChars? n.text.toList = some n := by
  cases n with
  | int n =>
      change ofChars? (toString n).toList = _
      obtain ⟨m, rfl, htext⟩ | ⟨m, hpos, rfl, htext⟩ := toList_toString_cases n
      · have h := ofChars?_digits m []
        rw [List.append_nil] at h
        rw [htext, h, unsigned?_digits]
        rfl
      · rw [htext]
        change unsigned? true (digits m) = _
        rw [unsigned?_digits, if_neg (by decide), if_neg (Nat.ne_of_gt hpos)]
  | decimal negative n e =>
      rw [toList_text_decimal]
      cases negative with
      | false => exact (ofChars?_digits n _).trans (unsigned?_exponent false n e)
      | true => exact unsigned?_exponent true n e

/-- A literal begins with a digit or a sign. -/
theorem exists_text_eq_cons (n : Number) :
    ∃ c cs, n.text.toList = c :: cs ∧ (c.isDigit || c == '-') = true := by
  have hdigits : ∀ m rest, ∃ c cs, digits m ++ rest = c :: cs ∧ (c.isDigit || c == '-') = true := by
    intro m rest
    obtain ⟨c, cs, hcons, hdigit, _⟩ := exists_digits_eq_cons m
    exact ⟨c, cs ++ rest, by rw [hcons, List.cons_append], by rw [hdigit, Bool.true_or]⟩
  cases n with
  | int n =>
      change ∃ c cs, (toString n).toList = c :: cs ∧ _
      obtain ⟨m, _, htext⟩ | ⟨m, _, _, htext⟩ := toList_toString_cases n
      · rw [htext]
        simpa using hdigits m []
      · exact ⟨'-', _, htext, rfl⟩
  | decimal negative n e =>
      rw [toList_text_decimal]
      cases negative with
      | false => exact hdigits n _
      | true => exact ⟨'-', _, rfl, rfl⟩

theorem isNumeric_of_mem_text {n : Number} {c : Char} (h : c ∈ n.text.toList) :
    isNumeric c = true := by
  have hdigits : ∀ m, ∀ c ∈ digits m, isNumeric c = true := by
    intro m c hc
    simp [isNumeric, isDigit_of_mem_digits hc]
  have hint : ∀ e : Int, ∀ c ∈ (toString e).toList, isNumeric c = true := by
    intro e c hc
    obtain ⟨m, _, htext⟩ | ⟨m, _, _, htext⟩ := toList_toString_cases e
    · exact hdigits m c (htext ▸ hc)
    · rw [htext] at hc
      rcases List.mem_cons.1 hc with rfl | hc
      · rfl
      · exact hdigits m c hc
  cases n with
  | int n => exact hint n c h
  | decimal negative n e =>
      rw [toList_text_decimal, List.mem_append, List.mem_append, List.mem_cons] at h
      rcases h with h | h | rfl | h
      · cases negative <;> simp at h
        rw [h]
        rfl
      · exact hdigits n c h
      · rfl
      · exact hint e c h

end Number

end Ratchet.Json
