/-!
# Computations that may fail

How a computation in `Except` comes to its outcome, one step at a time, and what it means that one
computation is made up of two others that have nothing to do with each other.
-/

namespace Ratchet

/-- A computation that succeeds in two steps succeeds in each of them. -/
theorem bind_eq_ok {ε α β : Type} {x : Except ε α} {f : α → Except ε β} {b : β} :
    x >>= f = .ok b ↔ ∃ a, x = .ok a ∧ f a = .ok b := by
  cases x with
  | error e => simp [bind, Except.bind]
  | ok a => simp [bind, Except.bind]

theorem bind_eq_error {ε α β : Type} {x : Except ε α} {f : α → Except ε β} {e : ε} :
    x >>= f = .error e ↔ x = .error e ∨ ∃ a, x = .ok a ∧ f a = .error e := by
  cases x with
  | error e' => simp [bind, Except.bind]
  | ok a => simp [bind, Except.bind]

theorem toOption_eq_some {ε α : Type} {x : Except ε α} {a : α} :
    x.toOption = some a ↔ x = .ok a := by
  cases x <;> simp [Except.toOption]

theorem toOption_bind {ε α β : Type} {x : Except ε α} {f : α → Except ε β} :
    (x >>= f).toOption = x.toOption.bind fun a => (f a).toOption := by
  cases x <;> rfl

theorem toOption_mapM {ε α β : Type} {f : α → Except ε β} {xs : List α} :
    (xs.mapM f).toOption = xs.mapM fun x => (f x).toOption := by
  induction xs with
  | nil => rfl
  | cons x xs ih =>
      rw [List.mapM_cons, List.mapM_cons, toOption_bind]
      congr 1
      funext y
      rw [toOption_bind, ih]
      rfl

/-- Outcomes that an injective function makes equal are equal. -/
theorem eq_of_map_eq {ε α β : Type} {f : α → β} (hf : ∀ a b, f a = f b → a = b)
    {x y : Except ε α} (h : x.map f = y.map f) : x = y := by
  cases x with
  | error e =>
      cases y with
      | error e' => exact congrArg Except.error (Except.error.inj h)
      | ok b => cases h
  | ok a =>
      cases y with
      | error e => cases h
      | ok b => exact congrArg Except.ok (hf a b (Except.ok.inj h))

theorem mem_of_mapM_eq_ok {ε α β : Type} {f : α → Except ε β} {xs : List α} {ys : List β} {y : β}
    (h : xs.mapM f = .ok ys) : y ∈ ys ↔ ∃ x ∈ xs, f x = .ok y := by
  induction xs generalizing ys with
  | nil =>
      cases h
      simp
  | cons x xs ih =>
      rw [List.mapM_cons] at h
      obtain ⟨z, hz, h⟩ := bind_eq_ok.1 h
      obtain ⟨zs, hzs, heq⟩ := bind_eq_ok.1 h
      cases heq
      simp [ih hzs, hz, eq_comm]

theorem exists_of_mapM_eq_ok {ε α β : Type} {f : α → Except ε β} {xs : List α} {ys : List β} {x : α}
    (h : xs.mapM f = .ok ys) (hx : x ∈ xs) : ∃ y, f x = .ok y := by
  induction xs generalizing ys with
  | nil => cases hx
  | cons z zs ih =>
      rw [List.mapM_cons] at h
      obtain ⟨y, hy, h⟩ := bind_eq_ok.1 h
      obtain ⟨rest, hrest, _⟩ := bind_eq_ok.1 h
      rcases List.mem_cons.1 hx with rfl | hx
      · exact ⟨y, hy⟩
      · exact ih hrest hx

theorem exists_mapM_eq_ok {ε α β : Type} {f : α → Except ε β} {xs : List α}
    (h : ∀ x ∈ xs, ∃ y, f x = .ok y) : ∃ ys, xs.mapM f = .ok ys := by
  induction xs with
  | nil => exact ⟨[], rfl⟩
  | cons x xs ih =>
      obtain ⟨⟨y, hy⟩, hxs⟩ := List.forall_mem_cons.1 h
      obtain ⟨ys, hys⟩ := ih hxs
      rw [List.mapM_cons]
      exact ⟨y :: ys, bind_eq_ok.2 ⟨y, hy, bind_eq_ok.2 ⟨ys, hys, rfl⟩⟩⟩

theorem mapM_eq_error {ε α β : Type} {f : α → Except ε β} {xs : List α} {e : ε}
    (h : xs.mapM f = .error e) : ∃ x ∈ xs, f x = .error e := by
  induction xs with
  | nil => cases h
  | cons x xs ih =>
      rw [List.mapM_cons] at h
      rcases bind_eq_error.1 h with hx | ⟨_, _, h⟩
      · exact ⟨x, List.mem_cons_self, hx⟩
      · rcases bind_eq_error.1 h with hxs | ⟨_, _, heq⟩
        · obtain ⟨y, hy, hfault⟩ := ih hxs
          exact ⟨y, List.mem_cons_of_mem _ hy, hfault⟩
        · cases heq

/-! ## Computations made up of two others -/

/-- The first computation succeeds just if the other two do, and then with a related result. -/
structure Combines {ε α β γ : Type} (R : α → β → γ → Prop) (x : Except ε α) (y : Except ε β)
    (z : Except ε γ) : Prop where
  exists_whole : ∀ b c, y = .ok b → z = .ok c → ∃ a, x = .ok a ∧ R a b c
  exists_parts : ∀ a, x = .ok a → ∃ b c, y = .ok b ∧ z = .ok c

namespace Combines

variable {ε α β γ α' β' γ' : Type} {R : α → β → γ → Prop} {R' : α' → β' → γ' → Prop}
  {x : Except ε α} {y : Except ε β} {z : Except ε γ}

theorem ok {a : α} {b : β} {c : γ} (h : R a b c) :
    Combines R (.ok a : Except ε α) (.ok b) (.ok c) where
  exists_whole := by
    rintro _ _ ⟨⟩ ⟨⟩
    exact ⟨a, rfl, h⟩
  exists_parts _ _ := ⟨b, c, rfl, rfl⟩

theorem error {e e' : ε} : Combines R (.error e) (.error e') z :=
  ⟨nofun, nofun⟩

theorem parts_of_ok (h : Combines R x y z) {a : α} (hx : x = .ok a) :
    ∃ b c, y = .ok b ∧ z = .ok c ∧ R a b c := by
  obtain ⟨b, c, hy, hz⟩ := h.exists_parts a hx
  obtain ⟨a', hx', hR⟩ := h.exists_whole b c hy hz
  cases hx.symm.trans hx'
  exact ⟨b, c, hy, hz, hR⟩

/-- The two others can change places. -/
theorem swap {Q : α → γ → β → Prop} (h : Combines R x y z) (hQ : ∀ a b c, R a b c → Q a c b) :
    Combines Q x z y where
  exists_whole c b hz hy := by
    obtain ⟨a, hx, hR⟩ := h.exists_whole b c hy hz
    exact ⟨a, hx, hQ a b c hR⟩
  exists_parts a hx := by
    obtain ⟨b, c, hy, hz⟩ := h.exists_parts a hx
    exact ⟨c, b, hz, hy⟩

/-- Step by step. -/
theorem bind {f : α → Except ε α'} {g : β → Except ε β'} {k : γ → Except ε γ'}
    (h : Combines R x y z)
    (hnext : ∀ a b c, y = .ok b → z = .ok c → R a b c → Combines R' (f a) (g b) (k c)) :
    Combines R' (x >>= f) (y >>= g) (z >>= k) where
  exists_whole b' c' hy hz := by
    obtain ⟨b, hy, hg⟩ := bind_eq_ok.1 hy
    obtain ⟨c, hz, hk⟩ := bind_eq_ok.1 hz
    obtain ⟨a, hx, hR⟩ := h.exists_whole b c hy hz
    obtain ⟨a', hf, hR'⟩ := (hnext a b c hy hz hR).exists_whole b' c' hg hk
    exact ⟨a', bind_eq_ok.2 ⟨a, hx, hf⟩, hR'⟩
  exists_parts a' hx := by
    obtain ⟨a, hx, hf⟩ := bind_eq_ok.1 hx
    obtain ⟨b, c, hy, hz, hR⟩ := h.parts_of_ok hx
    obtain ⟨b', c', hg, hk⟩ := (hnext a b c hy hz hR).exists_parts a' hf
    exact ⟨b', c', bind_eq_ok.2 ⟨b, hy, hg⟩, bind_eq_ok.2 ⟨c, hz, hk⟩⟩

/-- A step that the third computation does not take part in. -/
theorem bind_left {c : γ} {f : α → Except ε α'} {g : β → Except ε β'} {z : Except ε γ'}
    (h : Combines R x y (.ok c)) (hnext : ∀ a b, R a b c → Combines R' (f a) (g b) z) :
    Combines R' (x >>= f) (y >>= g) z :=
  bind (k := fun _ => z) h fun a b c' _ hc hR => by
    cases hc
    exact hnext a b hR

/-- A last step that cannot fail. -/
theorem finish_left {f : α → Except ε α'} {g : β → Except ε β'} {Q : α' → β' → γ → Prop}
    (h : Combines R x y z)
    (hlast : ∀ a b c, R a b c → ∃ a' b', f a = .ok a' ∧ g b = .ok b' ∧ Q a' b' c) :
    Combines Q (x >>= f) (y >>= g) z where
  exists_whole b' c hy hz := by
    obtain ⟨b, hy, hg⟩ := bind_eq_ok.1 hy
    obtain ⟨a, hx, hR⟩ := h.exists_whole b c hy hz
    obtain ⟨a', b'', hf, hg', hQ⟩ := hlast a b c hR
    cases hg.symm.trans hg'
    exact ⟨a', bind_eq_ok.2 ⟨a, hx, hf⟩, hQ⟩
  exists_parts a' hx := by
    obtain ⟨a, hx, _⟩ := bind_eq_ok.1 hx
    obtain ⟨b, c, hy, hz, hR⟩ := h.parts_of_ok hx
    obtain ⟨_, b', _, hg, _⟩ := hlast a b c hR
    exact ⟨b', c, bind_eq_ok.2 ⟨b, hy, hg⟩, hz⟩

end Combines

end Ratchet
