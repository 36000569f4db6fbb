import Mathlib.Algebra.Ring.Int.Defs
import Mathlib.Data.List.Chain
import Ratchet.Proofs.Lattice.GrowSet
import Ratchet.Proofs.Lattice.Register
import Ratchet.Proofs.Program.Fault
import Ratchet.Protocol.ShortestPath

/-!
# Chains of links

What the paths of a graph stand for.  A chain is a non-empty list of links, each of which starts
where the one before it ends.  A path is given by a chain if it has the ends of the chain, its cost,
and the node after its first link.  Costs of chains are sums of unbounded integers.

Different chains can give the same path, but no chain gives two.  The two selectors of a path search
follow how chains are built: a link is a chain, and a link before a chain makes a longer one
(`Chain.gives_ofLink`, `Chain.gives_extend`).

The search answers with the first path of least cost.  Paths are listed in ascending order, so among
the cheapest ones between two nodes that is the one with the least next node (`cheapest?_least`).
-/

namespace Ratchet

/-- A list of links of a graph, each of which starts where the one before it ends. -/
structure Chain (links : GrowSet Link) where
  first : Link
  rest : List Link
  mem : ∀ l ∈ first :: rest, l ∈ links
  linked : (first :: rest).IsChain fun a b => a.target = b.source

namespace Chain

variable {links links' : GrowSet Link} {l : Link} {path : Path}

/-- The links of the chain in their order. -/
def list (c : Chain links) : List Link := c.first :: c.rest

/-- Where the first link starts. -/
def source (c : Chain links) : String := c.first.source

/-- Where the last link ends. -/
def target (c : Chain links) : String := (c.list.getLast (List.cons_ne_nil _ _)).target

/-- Where the first link ends, or the empty text if there is no second link. -/
def next (c : Chain links) : String := if c.rest.isEmpty then "" else c.first.target

/-- The sum of the costs of the links. -/
def cost (c : Chain links) : Int := (c.list.map fun l => l.cost.toInt).sum

/-- The path has the ends, the next node and the cost of the chain. -/
structure Gives (c : Chain links) (path : Path) : Prop where
  source_eq : path.source = c.source
  target_eq : path.target = c.target
  next_eq : path.next = c.next
  cost_eq : path.cost.toInt = c.cost

/-- A chain gives one path only. -/
theorem Gives.unique {c : Chain links} {path' : Path} (h : c.Gives path) (h' : c.Gives path') :
    path = path' := by
  obtain ⟨source, target, next, cost⟩ := path
  obtain ⟨source', target', next', cost'⟩ := path'
  obtain ⟨hsource, htarget, hnext, hcost⟩ := h
  obtain ⟨hsource', htarget', hnext', hcost'⟩ := h'
  have hsame : cost = cost' := Int64.toInt_inj.1 (hcost.trans hcost'.symm)
  simp only [hsame, Path.mk.injEq, and_true]
  exact ⟨hsource.trans hsource'.symm, htarget.trans htarget'.symm, hnext.trans hnext'.symm⟩

/-! ## Building chains -/

/-- A link on its own. -/
def single (l : Link) (hl : l ∈ links) : Chain links where
  first := l
  rest := []
  mem := by simpa using hl
  linked := .singleton l

/-- A link before a chain that starts where the link ends. -/
def cons (l : Link) (c : Chain links) (hl : l ∈ links) (hlinked : l.target = c.source) :
    Chain links where
  first := l
  rest := c.list
  mem := List.forall_mem_cons.2 ⟨hl, c.mem⟩
  linked := .cons_cons hlinked c.linked

/-- Every chain is a single link or a link before a chain. -/
@[elab_as_elim]
theorem induction {motive : Chain links → Prop} (single : ∀ l hl, motive (single l hl))
    (cons : ∀ l c hl hlinked, motive c → motive (cons l c hl hlinked)) (c : Chain links) :
    motive c := by
  obtain ⟨first, rest, mem, linked⟩ := c
  induction rest generalizing first with
  | nil => exact single first (mem first List.mem_cons_self)
  | cons l ls ih =>
      obtain ⟨hfirst, hrest⟩ := List.forall_mem_cons.1 mem
      obtain ⟨hlinked, hchain⟩ := List.isChain_cons_cons.1 linked
      exact cons first ⟨l, ls, hrest, hchain⟩ hfirst hlinked (ih l hrest hchain)

/-- The same chain in a graph with more links. -/
def mono (c : Chain links) (h : ∀ l ∈ links, l ∈ links') : Chain links' where
  first := c.first
  rest := c.rest
  mem l hl := h l (c.mem l hl)
  linked := c.linked

theorem Gives.mono {c : Chain links} (hc : c.Gives path) (h : ∀ l ∈ links, l ∈ links') :
    (c.mono h).Gives path := ⟨hc.1, hc.2, hc.3, hc.4⟩

theorem gives_ofLink (hl : l ∈ links) : (single l hl).Gives (ShortestPath.ofLink l) :=
  ⟨rfl, rfl, rfl, by simp [ShortestPath.ofLink, cost, list, single]⟩

theorem target_cons {c : Chain links} {hl : l ∈ links} {hlinked : l.target = c.source} :
    (cons l c hl hlinked).target = c.target := by
  unfold target list
  exact congrArg Link.target (List.getLast_cons (List.cons_ne_nil _ _))

theorem cost_cons {c : Chain links} {hl : l ∈ links} {hlinked : l.target = c.source} :
    (cons l c hl hlinked).cost = l.cost.toInt + c.cost := by
  simp [cost, list, cons]

end Chain

namespace ShortestPath

variable {links : GrowSet Link} {l : Link} {path longer : Path}

theorem extend_eq_ok : extend l path = .ok (some longer) ↔ l.target = path.source ∧
    longer.source = l.source ∧ longer.target = path.target ∧ longer.next = l.target ∧
      l.cost.toInt + path.cost.toInt = longer.cost.toInt := by
  unfold extend
  by_cases hlinked : l.target = path.source
  · rw [if_pos hlinked, ← checkedAdd_eq_ok]
    constructor
    · intro h
      obtain ⟨cost, hcost, heq⟩ := bind_eq_ok.1 h
      cases heq
      exact ⟨hlinked, rfl, rfl, rfl, hcost⟩
    · rintro ⟨_, hsource, htarget, hnext, hcost⟩
      refine bind_eq_ok.2 ⟨longer.cost, hcost, ?_⟩
      rw [← hsource, ← htarget, ← hnext]
      rfl
  · rw [if_neg hlinked]
    exact ⟨nofun, fun h => absurd h.1 hlinked⟩

theorem exists_longer {outcome : Option Path} (hlinked : l.target = path.source)
    (h : extend l path = .ok outcome) : ∃ longer, outcome = some longer := by
  unfold extend at h
  rw [if_pos hlinked] at h
  obtain ⟨cost, _, heq⟩ := bind_eq_ok.1 h
  cases heq
  exact ⟨_, rfl⟩

/-- The extended path is the one that the longer chain gives. -/
theorem gives_extend {c : Chain links} (hc : c.Gives path) (hl : l ∈ links)
    (hlinked : l.target = c.source) (h : extend l path = .ok (some longer)) :
    (c.cons l hl hlinked).Gives longer := by
  obtain ⟨_, hsource, htarget, hnext, hcost⟩ := extend_eq_ok.1 h
  refine ⟨hsource, ?_, hnext, ?_⟩
  · rw [htarget, hc.target_eq, Chain.target_cons]
  · rw [← hcost, hc.cost_eq, Chain.cost_cons]

/-! ## The cheapest path of an ascending list -/

theorem cheaper_cases (a b : Path) :
    cheaper a b = a ∧ a.cost ≤ b.cost ∨ cheaper a b = b ∧ b.cost < a.cost := by
  unfold cheaper
  by_cases h : b.cost < a.cost
  · exact .inr ⟨if_pos h, h⟩
  · exact .inl ⟨if_neg h, Int64.not_lt.1 h⟩

/-- What is found is no more costly than any path, and stands before those of the same cost. -/
theorem foldl_cheaper {a : Path} {as : List Path}
    (h : (a :: as).Pairwise fun a b => compare a b = .lt) :
    as.foldl cheaper a ∈ a :: as ∧ ∀ x ∈ a :: as, (as.foldl cheaper a).cost < x.cost ∨
      (as.foldl cheaper a).cost = x.cost ∧
        (as.foldl cheaper a = x ∨ compare (as.foldl cheaper a) x = .lt) := by
  induction as generalizing a with
  | nil => simp
  | cons b bs ih =>
      obtain ⟨hhead, htail⟩ := List.pairwise_cons.1 h
      obtain ⟨hb, hbs⟩ := List.forall_mem_cons.1 hhead
      rw [List.foldl_cons]
      rcases cheaper_cases a b with ⟨hkept, hle⟩ | ⟨hkept, hlt⟩
      · -- the first path is kept, and the second one is no better than it
        rw [hkept]
        obtain ⟨hmem, hleast⟩ := ih (h.sublist (.cons_cons a (.cons b (.refl bs))))
        refine ⟨?_, List.forall_mem_cons.2 ⟨hleast a List.mem_cons_self,
          List.forall_mem_cons.2 ⟨?_, fun x hx => hleast x (List.mem_cons_of_mem a hx)⟩⟩⟩
        · rcases List.mem_cons.1 hmem with heq | hmem
          · rw [heq]
            exact List.mem_cons_self
          · exact List.mem_cons_of_mem a (List.mem_cons_of_mem b hmem)
        · rcases hleast a List.mem_cons_self with hlt | ⟨hcost, hplace⟩
          · exact .inl (Int64.lt_of_lt_of_le hlt hle)
          · rw [← hcost] at hle
            rcases Int64.le_iff_lt_or_eq.1 hle with hlt | heq
            · exact .inl hlt
            · refine .inr ⟨heq, .inr ?_⟩
              rcases hplace with hsame | hbefore
              · rw [hsame]
                exact hb
              · exact Element.lt_trans hbefore hb
      · rw [hkept]
        obtain ⟨hmem, hleast⟩ := ih htail
        refine ⟨List.mem_cons_of_mem a hmem, List.forall_mem_cons.2 ⟨.inl ?_, hleast⟩⟩
        rcases hleast b List.mem_cons_self with hless | ⟨hcost, _⟩
        · exact Int64.lt_trans hless hlt
        · rw [hcost]
          exact hlt

theorem next_le_of_lt {a b : Path} (hsource : a.source = b.source) (htarget : a.target = b.target)
    (hcost : a.cost = b.cost) (h : compare a b = .lt) : a.next ≤ b.next := by
  have hfields : compare a b = (compare a.source b.source).then ((compare a.target b.target).then
      ((compare a.next b.next).then ((compare a.cost b.cost).then .eq))) := rfl
  have hnext : compare a.next b.next = .lt := by
    simpa [hfields, hsource, htarget, hcost] using h
  have hlt : a.next < b.next := (MaxText.lt_iff_compare a.next b.next).2 hnext
  exact String.not_lt.1 (String.lt_asymm hlt)

theorem cheapest?_eq_none {as : List Path} : cheapest? as = none ↔ as = [] := by
  cases as <;> simp [cheapest?]

/-- Among paths with the same ends, the cheapest one of an ascending list has the least next node of
those that cost as much. -/
theorem cheapest?_least {as : List Path} {source target : String} {b : Path}
    (has : as.Pairwise fun a b => compare a b = .lt)
    (hends : ∀ a ∈ as, a.source = source ∧ a.target = target) (h : cheapest? as = some b) :
    b ∈ as ∧ ∀ a ∈ as, b.cost ≤ a.cost ∧ (b.cost = a.cost → b.next ≤ a.next) := by
  cases as with
  | nil => cases h
  | cons first as =>
      obtain rfl : as.foldl cheaper first = b := Option.some.inj h
      obtain ⟨hmem, hleast⟩ := foldl_cheaper has
      refine ⟨hmem, ?_⟩
      intro a ha
      obtain ⟨hsource, htarget⟩ := hends a ha
      obtain ⟨hsource', htarget'⟩ := hends _ hmem
      rcases hleast a ha with hlt | ⟨hcost, heq | hbefore⟩
      · exact ⟨Int64.le_of_lt hlt, fun heq => absurd hlt (heq ▸ Int64.lt_irrefl)⟩
      · rw [heq]
        exact ⟨Int64.le_refl a.cost, fun _ => String.le_refl a.next⟩
      · exact ⟨Int64.le_of_eq hcost, fun _ => next_le_of_lt (hsource'.trans hsource.symm)
          (htarget'.trans htarget.symm) hcost hbefore⟩

end ShortestPath

end Ratchet
