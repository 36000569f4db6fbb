import Ratchet.Codec.Lattice
import Ratchet.Proofs.Json.Parse
import Ratchet.Proofs.Lattice.Dynamic

/-!
# Lawful codecs

A codec is lawful if it reads what it writes (`LawfulCodec`).  The codecs of lists, pairs, sets and
maps are lawful over lawful codecs, since sets and maps are written in order and reading them in
order puts each element at the end.

Dynamically typed values are written along their tree, and read by functions of their own, one for
each level of a written map.  An induction over the value goes through them; in the case of a map it
has the values that the map holds.
-/

namespace Ratchet

open Json

/-- A codec that reads what it writes. -/
class LawfulCodec (α : Type) [Codec α] : Prop where
  decode?_encode (a : α) : Codec.decode? (Codec.encode a) = some a

namespace Codec

variable {α β V : Type} [Codec α] [Codec β] [Codec V]

@[simp] theorem decode?_encode [LawfulCodec α] (a : α) : decode? (encode a) = some a :=
  LawfulCodec.decode?_encode a

/-! ## Basic types -/

instance : LawfulCodec Bool := ⟨fun _ => rfl⟩

instance : LawfulCodec String := ⟨fun _ => rfl⟩

instance : LawfulCodec Int64 where
  decode?_encode n := by
    have hrange : Int64.minValue.toInt ≤ n.toInt ∧ n.toInt ≤ Int64.maxValue.toInt :=
      ⟨Int64.minValue_le_toInt n, Int64.toInt_le n⟩
    exact (if_pos hrange).trans (congrArg some (Int64.ofInt_toInt n))

theorem mapM_decode?_encode [LawfulCodec α] (as : List α) :
    (as.map encode).mapM decode? = some as := by
  have h : (as.map encode).mapM decode? = some (as.map id) :=
    mapM_map_eq_some fun a _ => decode?_encode a
  rw [h, List.map_id]

instance [LawfulCodec α] : LawfulCodec (List α) := ⟨mapM_decode?_encode⟩

instance [LawfulCodec α] [LawfulCodec β] : LawfulCodec (α × β) where
  decode?_encode p := by
    change (decode? (encode p.1)).bind (fun a =>
      (decode? (encode p.2)).bind fun b => some (a, b)) = _
    rw [decode?_encode, decode?_encode]
    rfl

/-- An absent value is told from a present one if no present one is written as `null`. -/
theorem lawfulCodec_option [LawfulCodec α] (h : ∀ a : α, encode a ≠ .null) :
    LawfulCodec (Option α) where
  decode?_encode a := by
    cases a with
    | none => rfl
    | some a =>
        have hread : some <$> decode? (encode a) = some (some a) := by
          rw [decode?_encode]
          rfl
        change Codec.decode? (encode a) = _
        cases hj : encode a with
        | null => exact absurd hj (h a)
        | _ => rwa [hj] at hread

/-! ## Structures -/

theorem filter_key_eq_singleton {ms : List (String × Json)} {m : String × Json}
    (h : (ms.map Prod.fst).Nodup) (hm : m ∈ ms) : ms.filter (fun m' => m'.1 == m.1) = [m] := by
  induction ms with
  | nil => cases hm
  | cons n ms ih =>
      obtain ⟨hn, hms⟩ := List.nodup_cons.1 h
      by_cases hkey : n.1 = m.1
      · have hrest : ∀ n' ∈ ms, ¬ (n'.1 == m.1) = true := by
          intro n' hn' hkey'
          exact hn (hkey ▸ beq_iff_eq.1 hkey' ▸ List.mem_map_of_mem hn')
        have hmn : m = n := (List.mem_cons.1 hm).resolve_right fun hm =>
          hrest m hm (beq_self_eq_true m.1)
        rw [List.filter_cons_of_pos (by simpa using hkey), List.filter_eq_nil_iff.2 hrest, hmn]
      · have hm : m ∈ ms := (List.mem_cons.1 hm).resolve_left fun hmn => hkey (hmn ▸ rfl)
        rw [List.filter_cons_of_neg (by simpa using hkey), ih hms hm]

/-- The fields of a structure are found among its members. -/
theorem fields?_object (ms : List (String × Json)) (h : (ms.map Prod.fst).Nodup) :
    fields? (ms.map Prod.fst) (.object ms) = some (ms.map fun m => some m.2) := by
  refine mapM_map_eq_some fun m hm => ?_
  rw [filter_key_eq_singleton h hm]

theorem field?_object (name : String) (j : Json) : field? name (.object [(name, j)]) = some j := by
  have hfields : fields? [name] (.object [(name, j)]) = some [some j] :=
    fields?_object [(name, j)] (by simp)
  rw [field?, hfields]
  rfl

/-- A structure with one field is made from the field again. -/
theorem decode?_field {γ : Type} [LawfulCodec β] (name : String) (f : β → γ) (b : β) :
    ((do return f (← decode? (← field? name (.object [(name, encode b)])))) : Option γ) =
      some (f b) := by
  rw [field?_object]
  change (decode? (encode b)).bind _ = _
  rw [decode?_encode]
  rfl

/-! ## Registers, sets and maps -/

instance : LawfulCodec MaxInt := ⟨fun m => decode?_field "value" MaxInt.mk m.value⟩

instance : LawfulCodec MaxText := ⟨fun m => decode?_field "value" MaxText.mk m.value⟩

instance : LawfulCodec Flag := ⟨fun b => decode?_field "value" Flag.mk b.value⟩

instance [Element α] [LawfulCodec α] : LawfulCodec (GrowSet α) where
  decode?_encode s := by
    have hsame : GrowSet.ofList s.elements = s := GrowSet.ext_mem fun _ => GrowSet.mem_ofList
    exact (decode?_field "elements" GrowSet.ofList s.elements).trans (congrArg some hsame)

theorem ofMembers?_encode [LawfulCodec V] (m : StringMap V) :
    StringMap.ofMembers? (.object (m.entries.map fun e => (e.1, encode e.2))) = some m := by
  have hread : (m.entries.map fun e => (e.1, encode e.2)).mapM
      (fun e => do return (e.1, ← decode? e.2)) = some (m.entries.map (id : String × V → _)) := by
    refine mapM_map_eq_some fun e _ => ?_
    rw [decode?_encode]
    rfl
  rw [StringMap.ofMembers?, hread, List.map_id]
  exact congrArg some m.ofList_entries

instance [LawfulCodec V] : LawfulCodec (StringMap V) where
  decode?_encode m := by
    change (field? "entries" (.object [("entries", _)])).bind _ = _
    rw [field?_object]
    exact ofMembers?_encode m

instance [LawfulCodec V] : LawfulCodec (MapEntry V) where
  decode?_encode e := by
    have hfields : fields? ["key", "val"] (encode e) =
        some [some (encode e.key), some (encode e.value)] :=
      fields?_object [("key", encode e.key), ("val", encode e.value)] (by simp)
    change (fields? ["key", "val"] (encode e)).bind _ = _
    rw [hfields]
    change (decode? (encode e.key)).bind (fun key => (decode? (encode e.value)).bind fun value =>
      some (MapEntry.mk key value)) = _
    rw [decode?_encode, decode?_encode]
    rfl

instance : LawfulCodec Kind := ⟨fun k => by cases k <;> rfl⟩

/-! ## Dynamically typed values -/

section Dynamic

open Ratchet.Dynamic

theorem decodeMembers?_encode {es : List (String × Dynamic)}
    (h : ∀ e ∈ es, Dynamic.decode? e.2.tree.encode = some e.2) :
    decodeMembers? (Tree.encodeEntries (mapValues tree es)) = some es := by
  induction es with
  | nil => rfl
  | cons e es ih =>
      obtain ⟨he, hes⟩ := List.forall_mem_cons.1 h
      rw [mapValues_cons, Tree.encodeEntries, decodeMembers?, he, ih hes]
      rfl

/-- The key of a written value names its kind, and what it holds is read accordingly. -/
theorem decode?_name (k : Kind) (j : Json) : Dynamic.decode? (.object [(k.name, j)]) =
    match k with
    | .set => do return ofSet (← decode? j)
    | .map => do return ofMap (.ofList (← decodeMap? j))
    | .maxInt => do return ofMaxInt (← decode? j)
    | .maxText => do return ofMaxText (← decode? j)
    | .flag => do return ofFlag (← decode? j) := by
  have hname : Kind.ofName? k.name = some k := decode?_encode k
  rw [Dynamic.decode?, hname]
  cases k <;> rfl

theorem decodeMap?_encode {es : List (String × Dynamic)}
    (h : ∀ e ∈ es, Dynamic.decode? e.2.tree.encode = some e.2) :
    decodeMap? (.object [("entries", .object (Tree.encodeEntries (mapValues tree es)))]) =
      some es := by
  rw [decodeMap?, decodeField?, if_pos rfl, decodeEntries?, decodeMembers?_encode h]
  rfl

instance : LawfulCodec Dynamic where
  decode?_encode a := by
    change Dynamic.decode? a.tree.encode = some a
    induction a using Dynamic.induction with
    | set s | maxInt n | maxText s | flag b =>
        refine (decode?_name _ _).trans ?_
        dsimp only
        rw [decode?_encode]
        rfl
    | map m ih =>
        have hmap := decodeMap?_encode fun e he => ih e.1 e.2 (StringMap.mem_entries.1 he)
        rw [tree_ofMap, Tree.encode, decode?_name]
        dsimp only
        rw [hmap]
        exact congrArg (fun m => some (ofMap m)) m.ofList_entries

theorem encode_dynamic_ne_null (a : Dynamic) : encode a ≠ .null := by
  obtain ⟨t, ht⟩ := a
  change t.encode ≠ .null
  cases t <;> rw [Tree.encode] <;> nofun

instance : LawfulCodec (Option Dynamic) := lawfulCodec_option encode_dynamic_ne_null

end Dynamic

end Codec

end Ratchet
