import Ratchet.Proofs.Codec.Lawful
import Ratchet.RelationType

/-!
# Values read back from their texts

What is written about a value is a text, and between the value and its text stands a value of the
data format.  The compact text of such a value stands for it, and a lawful codec reads what it
wrote, so the text of a value stands for the value (`LawfulCodec.roundTrips`).

It remains to see that all codecs are lawful.  A record is written as its row of fields, under names
that differ from each other; the messages and the other facts are such records, and the values of a
relation are sets and maps of these.

## Main result

* `Codec.texts_roundTrip`: relations of every type, dynamically typed values, facts and messages.
-/

namespace Ratchet

open Codec

/-! ## Records -/

namespace Row

theorem map_fst_members : ∀ {fs : List Field} (row : Row fs),
    row.members.map Prod.fst = fs.map Field.name
  | [], () => rfl
  | f :: _, (_, row) => congrArg (f.name :: ·) row.map_fst_members

instance (t : FieldType) : LawfulCodec t.Carrier :=
  match t with
  | .int => inferInstanceAs (LawfulCodec Int64)
  | .text => inferInstanceAs (LawfulCodec String)
  | .flag => inferInstanceAs (LawfulCodec Bool)
  | .dynamic => inferInstanceAs (LawfulCodec Dynamic)
  | .optionalDynamic => inferInstanceAs (LawfulCodec (Option Dynamic))
  | .dynamicMap => inferInstanceAs (LawfulCodec (StringMap Dynamic))

theorem ofMembers?_members : ∀ {fs : List Field} (row : Row fs),
    ofMembers? fs (row.members.map fun m => some m.2) = some row
  | [], () => rfl
  | f :: fs, (value, row) => by
      change (decode? (encode value)).bind (fun value =>
        (ofMembers? fs (row.members.map fun m => some m.2)).bind fun row => some (value, row)) = _
      rw [decode?_encode, ofMembers?_members row]
      rfl

end Row

/-- A record is read back if no two of its fields have the same name. -/
theorem lawfulCodec_record (α : Type) [Record α] (h : ((Record.fields α).map Field.name).Nodup) :
    @LawfulCodec α (Record.codec α) := by
  refine @LawfulCodec.mk α (Record.codec α) fun a => ?_
  have hnames := (Record.toRow a).map_fst_members
  have hfields := fields?_object (Record.toRow a).members (hnames ▸ h)
  rw [hnames] at hfields
  change (fields? ((Record.fields α).map Field.name) (.object (Record.toRow a).members)).bind
    (fun js => (Row.ofMembers? (Record.fields α) js).bind fun row => some (Record.ofRow row)) = _
  rw [hfields, Option.bind_some, Row.ofMembers?_members, Option.bind_some, Record.ofRow_toRow]

instance : LawfulCodec Link := lawfulCodec_record Link (by decide)

instance : LawfulCodec Path := lawfulCodec_record Path (by decide)

instance : LawfulCodec RaceVote := lawfulCodec_record RaceVote (by decide)

instance (m : MessageType) : LawfulCodec m.Carrier :=
  lawfulCodec_record m.Carrier (by cases m <;> decide)

/-! ## Facts and relations -/

instance (f : FactType) : LawfulCodec f.Carrier :=
  match f with
  | .int => inferInstanceAs (LawfulCodec Int64)
  | .text => inferInstanceAs (LawfulCodec String)
  | .intPair => inferInstanceAs (LawfulCodec (Int64 × Int64))
  | .textInt => inferInstanceAs (LawfulCodec (String × Int64))
  | .dynamic => inferInstanceAs (LawfulCodec Dynamic)
  | .link => inferInstanceAs (LawfulCodec Link)
  | .path => inferInstanceAs (LawfulCodec Path)
  | .raceVote => inferInstanceAs (LawfulCodec RaceVote)
  | .message m => inferInstanceAs (LawfulCodec m.Carrier)

instance lawfulCodec_value : (t : RelationType) → LawfulCodec t.Value
  | .max => inferInstanceAs (LawfulCodec MaxInt)
  | .maxText => inferInstanceAs (LawfulCodec MaxText)
  | .flag => inferInstanceAs (LawfulCodec Flag)
  | .set f => inferInstanceAs (LawfulCodec (GrowSet f.Carrier))
  | .map t =>
      have := lawfulCodec_value t
      inferInstanceAs (LawfulCodec (StringMap t.Value))
  | .dynamicMap => inferInstanceAs (LawfulCodec (StringMap Dynamic))

instance (t : RelationType) : LawfulCodec t.Tuple :=
  match t with
  | .max => inferInstanceAs (LawfulCodec Int64)
  | .maxText => inferInstanceAs (LawfulCodec String)
  | .flag => inferInstanceAs (LawfulCodec Bool)
  | .set f => inferInstanceAs (LawfulCodec f.Carrier)
  | .map t => inferInstanceAs (LawfulCodec (MapEntry t.Value))
  | .dynamicMap => inferInstanceAs (LawfulCodec (MapEntry Dynamic))

/-! ## Texts -/

/-- The values of a type are read back from their texts. -/
structure Codec.RoundTrips (α : Type) [Codec α] : Prop where
  /-- The text of a value stands for the value. -/
  ofText?_text : ∀ a : α, ofText? (text a) = some a
  text_injective : ∀ a b : α, text a = text b → a = b
  /-- Whatever text a value was read from, it is read from the text that it is written as. -/
  ofText?_of_ofText? : ∀ (s : String) (a : α), ofText? s = some a → ofText? (text a) = some a
  /-- The same goes for a text from outside, which is read to a fixed depth only. -/
  ofText?_of_accept? : ∀ (s : String) (a : α), accept? s = some a → ofText? (text a) = some a

theorem LawfulCodec.roundTrips (α : Type) [Codec α] [LawfulCodec α] : RoundTrips α := by
  have hread : ∀ a : α, ofText? (text a) = some a := by
    intro a
    change (Json.parse? (encode a).compact).bind decode? = some a
    rw [Json.parse?_compact, Option.bind_some, decode?_encode]
  refine ⟨hread, fun a b hab => ?_, fun _ a _ => hread a, fun _ a _ => hread a⟩
  have hb := hread b
  rw [← hab, hread a] at hb
  exact Option.some.inj hb

/-- The values and the tuples of relations of every type, dynamically typed values, facts and
messages are read back from their texts; so are sets and maps of whatever is. -/
theorem Codec.texts_roundTrip :
    (∀ t : RelationType, RoundTrips t.Value ∧ RoundTrips t.Tuple) ∧
    RoundTrips Dynamic ∧ RoundTrips Kind ∧
    (∀ f : FactType, RoundTrips f.Carrier) ∧
    (∀ m : MessageType, RoundTrips m.Carrier) ∧
    (∀ (α : Type) [Element α] [Codec α] [LawfulCodec α], RoundTrips (GrowSet α)) ∧
    ∀ (V : Type) [Codec V] [LawfulCodec V], RoundTrips (StringMap V) ∧ RoundTrips (MapEntry V) :=
  ⟨fun t => ⟨LawfulCodec.roundTrips t.Value, LawfulCodec.roundTrips t.Tuple⟩,
    LawfulCodec.roundTrips Dynamic, LawfulCodec.roundTrips Kind,
    fun f => LawfulCodec.roundTrips f.Carrier, fun m => LawfulCodec.roundTrips m.Carrier,
    fun _ _ _ _ => LawfulCodec.roundTrips _,
    fun _ _ _ => ⟨LawfulCodec.roundTrips _, LawfulCodec.roundTrips _⟩⟩

/-- A snapshot of two keys, one of them holding a map. -/
def twoKeys : KeyValue.Snapshot where
  addr := "b"
  map := .ofList [("done", .ofSet (.ofList ["x", "y"])),
    ("low\n", .ofMap (.ofList [("", .ofMaxInt ⟨Int64.minValue⟩)]))]

/-- A text for it with the fields and the keys in another order, and an element twice. -/
def twoKeysText : String :=
  "\x7b\"map\":\x7b\"entries\":" ++
    "\x7b\"low\\u000a\":\x7b\"Map\":\x7b\"entries\":" ++
      "\x7b\"\":\x7b\"MaxInt\":\x7b\"value\": -9223372036854775808\x7d\x7d\x7d\x7d\x7d," ++
    "\"done\":\x7b\"Set\":[[\"y\",\"x\",\"y\"]]\x7d\x7d\x7d,\"addr\":\"b\"\x7d"

/-- The snapshot is read from either text, and sets with equal texts are equal. -/
theorem Codec.texts_roundTrip_twoKeys :
    twoKeysText ≠ text twoKeys ∧ accept? twoKeysText = some twoKeys ∧
      ofText? (text twoKeys) = some twoKeys ∧
      GrowSet.ofList ["y", "x", "y"] = GrowSet.ofList ["x", "y"] := by
  obtain ⟨_, _, _, _, hmessages, hsets, _⟩ := Codec.texts_roundTrip
  have haccept : accept? twoKeysText = some twoKeys := by decide +kernel
  have htexts : text (GrowSet.ofList ["y", "x", "y"]) = text (GrowSet.ofList ["x", "y"]) := by
    decide +kernel
  exact ⟨by decide +kernel, haccept, (hmessages .snapshot).ofText?_of_accept? _ _ haccept,
    (hsets String).text_injective _ _ htexts⟩

end Ratchet
