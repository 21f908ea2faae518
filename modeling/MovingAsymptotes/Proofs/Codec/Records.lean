import Mathlib
import MovingAsymptotes.Codec.Records
import MovingAsymptotes.Proofs.Exact

/-!
# Storing and reading back

A stored record is described by its fields: each has a key, a codec for what it holds and, in settings, a
default. All that is said of the records follows from their fields. What is stored is read back; a decoder of
settings completes what it is given by the defaults; and it looks at nothing but the values under its keys.

* `Codec`, `Field`: how a single field is stored.
* `Row`: the contents of the fields of a record.
* `Layout`: the fields of a record and its decoder.
* `Layout.decode?_encode`, `Layout.decode?_encode_iff`: what is stored without loss is read back, and nothing else.
* `Layout.completes`: what a decoder of settings makes of objects and lists.
* `records_read_back`: all stored records.
-/

namespace MovingAsymptotes

section Lookup

variable {γ : Type} {entries entries' : List (String × γ)} {key : String} {v : γ}

lemma lookup_eq_none_iff_notMem : entries.lookup key = none ↔ key ∉ entries.map Prod.fst := by
  simp only [List.lookup_eq_none_iff, List.mem_map, bne_iff_ne, ne_eq]
  exact ⟨fun h ⟨p, hp, e⟩ => h p hp e.symm, fun h p hp e => h ⟨p, hp, e.symm⟩⟩

/-- Where no key stands twice, the value under a key is the one that stands there. -/
lemma lookup_eq_some_iff_mem (hn : (entries.map Prod.fst).Nodup) :
    entries.lookup key = some v ↔ (key, v) ∈ entries := by
  induction entries with
  | nil => simp
  | cons entry entries ih =>
    obtain ⟨key', v'⟩ := entry
    obtain ⟨hkey, hn⟩ := List.nodup_cons.1 hn
    by_cases h : key = key'
    · subst h
      rw [List.lookup_cons_self, List.mem_cons, Option.some.injEq, Prod.mk.injEq]
      refine ⟨fun e => .inl ⟨rfl, e.symm⟩, fun hv => hv.elim (fun e => e.2.symm) fun hmem => ?_⟩
      exact absurd (List.mem_map_of_mem hmem) hkey
    · rw [List.lookup_cons, beq_false_of_ne h, List.mem_cons, Prod.mk.injEq, ih hn]
      exact ⟨.inr, fun hv => hv.resolve_left fun e => h e.1⟩

lemma lookup_perm (hp : entries.Perm entries') (hn : (entries.map Prod.fst).Nodup) (key : String) :
    entries.lookup key = entries'.lookup key := by
  have hn' : (entries'.map Prod.fst).Nodup := (hp.map Prod.fst).nodup_iff.1 hn
  refine Option.ext fun v => ?_
  rw [lookup_eq_some_iff_mem hn, lookup_eq_some_iff_mem hn', hp.mem_iff]

/-- A key that is not passed over has the same value among those that are left. -/
lemma lookup_filter {known : List String} (hkey : key ∈ known) :
    (entries.filter fun entry => entry.1 ∈ known).lookup key = entries.lookup key := by
  induction entries with
  | nil => rfl
  | cons entry entries ih =>
    obtain ⟨key', v⟩ := entry
    rw [List.filter_cons]
    by_cases h : key = key'
    · subst h
      simp only [hkey, decide_true, if_true, List.lookup_cons_self]
    · rw [List.lookup_cons, beq_false_of_ne h, ← ih]
      split
      · rw [List.lookup_cons, beq_false_of_ne h]
      · rfl

end Lookup

/-- How data of a type are stored and read back. -/
structure Codec (α β : Type) where
  encode : β → Value α
  decode? : Value α → Option β
  /-- The values that store data of the type. -/
  Fits : Value α → Prop
  /-- The data that can be stored without loss. -/
  Storable : β → Prop
  isSome_decode? : ∀ v, (decode? v).isSome ↔ Fits v
  decode?_encode : ∀ b, Storable b → decode? (encode b) = some b

/-- Nothing is read back but what can be stored without loss. -/
def Codec.Exact {α β : Type} (c : Codec α β) : Prop := ∀ b, c.decode? (c.encode b) = some b → c.Storable b

/-- A field of a stored record. -/
structure Field (α R : Type) where
  Content : Type
  codec : Codec α Content
  key : String
  get : R → Content
  /-- What the field holds where its key is missing; none if the key has to be there. -/
  usual : Option Content

namespace Field

variable {α β R : Type}

/-- A field that is completed by the one of a default record. -/
def optional (codec : Codec α β) (key : String) (get : R → β) (usual : R) : Field α R :=
  ⟨β, codec, key, get, some (get usual)⟩

/-- A field that has to be there. -/
def required (codec : Codec α β) (key : String) (get : R → β) : Field α R :=
  ⟨β, codec, key, get, none⟩

/-- What an object says the field holds. -/
def read (f : Field α R) (entries : List (String × Value α)) : Option f.Content :=
  match f.usual with
  | some usual => optionalField entries f.key f.codec.decode? usual
  | none => requiredField entries f.key f.codec.decode?

variable {f : Field α R} {entries entries' : List (String × Value α)}

lemma read_of_lookup {v : Value α} (h : entries.lookup f.key = some v) : f.read entries = f.codec.decode? v := by
  unfold read
  cases f.usual with
  | some usual =>
    unfold optionalField
    rw [h]
  | none =>
    unfold requiredField
    rw [h]
    rfl

lemma read_of_missing (h : entries.lookup f.key = none) : f.read entries = f.usual := by
  unfold read
  cases f.usual with
  | some usual =>
    unfold optionalField
    rw [h]
  | none =>
    unfold requiredField
    rw [h]
    rfl

/-- A field is read from the value under its key. -/
lemma read_congr (h : entries.lookup f.key = entries'.lookup f.key) : f.read entries = f.read entries' := by
  cases hv : entries.lookup f.key with
  | none => rw [read_of_missing hv, read_of_missing (h ▸ hv)]
  | some v => rw [read_of_lookup hv, read_of_lookup (h ▸ hv)]

/-- A field with a default is read if the value under its key, where there is one, fits. -/
lemma isSome_read (hn : (entries.map Prod.fst).Nodup) (hf : f.usual.isSome) :
    (f.read entries).isSome ↔ ∀ v, (f.key, v) ∈ entries → f.codec.Fits v := by
  cases hv : entries.lookup f.key with
  | none =>
    rw [read_of_missing hv]
    refine iff_of_true hf fun v hmem => ?_
    exact absurd (List.mem_map_of_mem hmem) (lookup_eq_none_iff_notMem.1 hv)
  | some v =>
    rw [read_of_lookup hv, f.codec.isSome_decode?]
    refine ⟨fun hfit v' hmem => ?_, fun h => h v ((lookup_eq_some_iff_mem hn).1 hv)⟩
    rw [← lookup_eq_some_iff_mem hn, hv] at hmem
    cases hmem
    exact hfit

end Field

lemma requiredField_map {α β γ : Type} (entries : List (String × Value α)) (key : String)
    (decode : Value α → Option β) (g : β → γ) :
    requiredField entries key (fun v => (decode v).map g) = (requiredField entries key decode).map g := by
  unfold requiredField
  rw [Option.map_bind]
  rfl

/-- The contents of fields, one after another. -/
def Row {α R : Type} : List (Field α R) → Type
  | [] => Unit
  | f :: fields => f.Content × Row fields

namespace Row

variable {α R S : Type}

/-- What the fields of a record hold. -/
def of : (fields : List (Field α R)) → R → Row fields
  | [], _ => ()
  | f :: fields, r => (f.get r, of fields r)

/-- Reads fields off an object, one after another, and builds something of their contents. -/
def readThen (entries : List (String × Value α)) : (fields : List (Field α R)) → (Row fields → S) → Option S
  | [], build => some (build ())
  | f :: fields, build => (f.read entries).bind fun c => readThen entries fields fun row => build (c, row)

variable {entries : List (String × Value α)} {fields : List (Field α R)} {build : Row fields → S}

/-- Where each field of a record is read, it is built of what they hold. -/
lemma readThen_of {r : R} (h : ∀ f ∈ fields, f.read entries = some (f.get r)) :
    readThen entries fields build = some (build (of fields r)) := by
  induction fields with
  | nil => rfl
  | cons f fields ih =>
    obtain ⟨hf, h⟩ := List.forall_mem_cons.1 h
    rw [readThen, hf]
    exact ih h

/-- What is built, is built of the contents that the fields were read to have. -/
lemma of_readThen {s : S} (h : readThen entries fields build = some s) :
    ∃ row, build row = s ∧ ∀ r, of fields r = row → ∀ f ∈ fields, f.read entries = some (f.get r) := by
  induction fields with
  | nil => exact ⟨(), Option.some.inj h, nofun⟩
  | cons f fields ih =>
    obtain ⟨c, hc, h⟩ := Option.bind_eq_some_iff.1 h
    obtain ⟨row, hrow, hread⟩ := ih h
    refine ⟨(c, row), hrow, fun r hr => List.forall_mem_cons.2 ⟨?_, hread r (congrArg Prod.snd hr)⟩⟩
    have hf : f.get r = c := congrArg Prod.fst hr
    rw [hc, hf]

/-- Reading fails only at a field. -/
lemma isSome_readThen : (readThen entries fields build).isSome ↔ ∀ f ∈ fields, (f.read entries).isSome := by
  induction fields with
  | nil => exact iff_of_true rfl nofun
  | cons f fields ih =>
    rw [List.forall_mem_cons, readThen]
    cases f.read entries with
    | none => exact iff_of_false nofun fun h => nomatch h.1
    | some c => exact ih.trans (and_iff_right rfl).symm

/-- Two records with the same contents in each field have the same row. -/
lemma of_congr {r r' : R} (h : ∀ f ∈ fields, f.get r = f.get r') : of fields r = of fields r' := by
  induction fields with
  | nil => rfl
  | cons f fields ih =>
    obtain ⟨hf, h⟩ := List.forall_mem_cons.1 h
    exact Prod.ext hf (ih h)

end Row

/-- A record can be stored without loss if each of its fields can. -/
def StoredWhole {α R : Type} (fields : List (Field α R)) (r : R) : Prop :=
  ∀ f ∈ fields, f.codec.Storable (f.get r)

/-- How the fields make up a record: it is stored field by field, and the decoder of an object reads each field
and nothing else. -/
structure Layout (α R : Type) where
  fields : List (Field α R)
  build : Row fields → R
  encode : R → Value α
  decode? : Value α → Option R
  nodup_keys : (fields.map Field.key).Nodup
  build_of : ∀ r, build (Row.of fields r) = r
  of_build : ∀ row, Row.of fields (build row) = row
  encode_eq : ∀ r, encode r = .object (fields.map fun f => (f.key, f.codec.encode (f.get r)))
  decode?_object : ∀ entries, decode? (.object entries) = Row.readThen entries fields build
  decode?_eq : ∀ v,
    decode? v = (v.fields? (fields.map Field.key)).bind fun entries => decode? (.object entries)

/-- What a decoder of settings with the given fields does. -/
structure Completes {α R : Type} (fields : List (Field α R)) (usual : R) (decode? : Value α → Option R) :
    Prop where
  /-- The fields are all there is to a record. -/
  ext : ∀ r r', (∀ f ∈ fields, f.get r = f.get r') → r = r'
  /-- An object is accepted if each value under a known key fits. -/
  isSome_iff : ∀ entries : List (String × Value α), (entries.map Prod.fst).Nodup →
    ((decode? (.object entries)).isSome ↔ ∀ f ∈ fields, ∀ v, (f.key, v) ∈ entries → f.codec.Fits v)
  /-- A field whose key is there holds the value under it. -/
  present : ∀ entries r, (entries.map Prod.fst).Nodup → decode? (.object entries) = some r →
    ∀ f ∈ fields, ∀ v, (f.key, v) ∈ entries → f.codec.decode? v = some (f.get r)
  /-- A field whose key is missing holds its default. -/
  missing : ∀ entries r, decode? (.object entries) = some r →
    ∀ f ∈ fields, f.key ∉ entries.map Prod.fst → f.get r = f.get usual
  /-- The order of the keys does not matter. -/
  perm : ∀ entries entries', entries.Perm entries' → (entries.map Prod.fst).Nodup →
    decode? (.object entries) = decode? (.object entries')
  /-- Unknown keys are passed over. -/
  filter : ∀ entries, decode? (.object (entries.filter fun entry => entry.1 ∈ fields.map Field.key)) =
    decode? (.object entries)
  /-- A list stands for the object with its items under the first keys. -/
  list : ∀ items, items.length ≤ fields.length →
    decode? (.list items) = decode? (.object ((fields.map Field.key).zip items))

namespace Layout

variable {α R : Type} (L : Layout α R)

/-- The fields are all there is to a record. -/
lemma ext {r r' : R} (h : ∀ f ∈ L.fields, f.get r = f.get r') : r = r' := by
  rw [← L.build_of r, Row.of_congr h, L.build_of]

/-- The record that is decoded is the one that has in each field what is read there. -/
lemma decode?_eq_some_iff {entries : List (String × Value α)} {r : R} :
    L.decode? (.object entries) = some r ↔ ∀ f ∈ L.fields, f.read entries = some (f.get r) := by
  rw [L.decode?_object]
  refine ⟨fun h => ?_, fun h => ?_⟩
  · obtain ⟨row, rfl, hread⟩ := Row.of_readThen h
    exact hread _ (L.of_build row)
  · rw [Row.readThen_of h, L.build_of]

/-- A decoder looks at nothing but the values under the keys of its fields. -/
lemma decode?_congr {entries entries' : List (String × Value α)}
    (h : ∀ f ∈ L.fields, entries.lookup f.key = entries'.lookup f.key) :
    L.decode? (.object entries) = L.decode? (.object entries') := by
  refine Option.ext fun r => ?_
  rw [L.decode?_eq_some_iff, L.decode?_eq_some_iff]
  exact forall₂_congr fun f hf => by rw [Field.read_congr (h f hf)]

/-- A field of a stored record is read from what is stored for it. -/
lemma read_encode {f : Field α R} (hf : f ∈ L.fields) (r : R) :
    f.read (L.fields.map fun f => (f.key, f.codec.encode (f.get r))) =
      f.codec.decode? (f.codec.encode (f.get r)) := by
  have keys : ((L.fields.map fun f => (f.key, f.codec.encode (f.get r))).map Prod.fst).Nodup := by
    rw [List.map_map]
    exact L.nodup_keys
  exact Field.read_of_lookup ((lookup_eq_some_iff_mem keys).2 (List.mem_map_of_mem hf))

/-- A stored record is read back as one whose fields are read back. -/
lemma decode?_encode_eq_some_iff {r r' : R} : L.decode? (L.encode r) = some r' ↔
    ∀ f ∈ L.fields, f.codec.decode? (f.codec.encode (f.get r)) = some (f.get r') := by
  rw [L.encode_eq, L.decode?_eq_some_iff]
  exact forall₂_congr fun f hf => by rw [L.read_encode hf]

/-- What is stored is read back. -/
theorem decode?_encode (r : R) (hr : StoredWhole L.fields r) : L.decode? (L.encode r) = some r :=
  L.decode?_encode_eq_some_iff.2 fun f hf => f.codec.decode?_encode _ (hr f hf)

/-- Only what is stored without loss is read back. -/
theorem decode?_encode_iff (exact : ∀ f ∈ L.fields, f.codec.Exact) (r : R) :
    L.decode? (L.encode r) = some r ↔ StoredWhole L.fields r :=
  ⟨fun h f hf => exact f hf _ (L.decode?_encode_eq_some_iff.1 h f hf), L.decode?_encode r⟩

/-- If each field has a default, a decoder completes what it is given. -/
theorem completes {usual : R} (hu : ∀ f ∈ L.fields, f.usual = some (f.get usual)) :
    Completes L.fields usual L.decode? where
  ext _ _ := L.ext
  isSome_iff entries hn := by
    rw [L.decode?_object, Row.isSome_readThen]
    exact forall₂_congr fun f hf => Field.isSome_read hn (by rw [hu f hf]; rfl)
  present entries r hn hr f hf v hv := by
    rw [← Field.read_of_lookup ((lookup_eq_some_iff_mem hn).2 hv)]
    exact L.decode?_eq_some_iff.1 hr f hf
  missing entries r hr f hf hkey := by
    have hread := L.decode?_eq_some_iff.1 hr f hf
    rw [Field.read_of_missing (lookup_eq_none_iff_notMem.2 hkey), hu f hf] at hread
    exact (Option.some.inj hread).symm
  perm _ _ hp hn := L.decode?_congr fun f _ => lookup_perm hp hn f.key
  filter _ := L.decode?_congr fun _ hf => lookup_filter (List.mem_map_of_mem hf)
  list items h := by
    have fit : (Value.list items).fields? (L.fields.map Field.key) =
        some ((L.fields.map Field.key).zip items) := if_pos (by rwa [List.length_map])
    rw [L.decode?_eq, fit]
    rfl

end Layout

lemma Value.caseName?_eq_some_iff {α : Type} {v : Value α} {s : String} :
    v.caseName? = some s ↔ v = .text s ∨ v = .object [(s, .null)] := by
  constructor
  · intro h
    unfold caseName? at h
    split at h
    · cases h
      exact .inl rfl
    · cases h
      exact .inr rfl
    · cases h
  · rintro (rfl | rfl) <;> rfl

lemma Method.isSome_ofName? {s : String} : (Method.ofName? s).isSome ↔ ∃ m : Method, s = m.name := by
  unfold Method.ofName?
  rw [List.find?_isSome]
  constructor
  · rintro ⟨m, -, hm⟩
    exact ⟨m, (of_decide_eq_true hm).symm⟩
  · rintro ⟨m, rfl⟩
    refine ⟨m, ?_, decide_eq_true rfl⟩
    cases m <;> simp

variable {α : Type} [Scalar α]

namespace Codec

/-- Scalars are stored as numbers and may be given as whole numbers. -/
def scalar : Codec α α where
  encode := .ofScalar
  decode? := Value.scalar?
  Fits v := (∃ i, v = .whole i) ∨ ∃ a, v = .number a
  Storable a := Scalar.isFinite a
  isSome_decode? v := by cases v <;> simp [Value.scalar?]
  decode?_encode a ha := by
    unfold Value.ofScalar
    rw [if_pos ha]
    rfl

/-- Counts are stored as whole numbers that fit into a word. -/
def count : Codec α Nat where
  encode := .ofCount
  decode? := Value.count?
  Fits v := ∃ i : Int, v = .whole i ∧ 0 ≤ i ∧ i < UInt64.size
  Storable n := n < UInt64.size
  isSome_decode? v := by cases v <;> simp [Value.count?]
  decode?_encode n hn := by
    have word : 0 ≤ (n : Int) ∧ (n : Int) < (UInt64.size : Int) := ⟨by omega, by omega⟩
    unfold Value.ofCount Value.count?
    dsimp only
    rw [if_pos word, Int.toNat_natCast]

/-- Truth values are stored as such. -/
def flag : Codec α Bool where
  encode := .flag
  decode? := Value.flag?
  Fits v := ∃ b, v = .flag b
  Storable _ := True
  isSome_decode? v := by cases v <;> simp [Value.flag?]
  decode?_encode _ _ := rfl

/-- A smallest multiplier can be stored once there is one. -/
def smallest : Codec α (Option α) where
  encode seen := (seen.map Value.ofScalar).getD .null
  decode? v := v.scalar?.map some
  Fits v := (∃ i, v = .whole i) ∨ ∃ a, v = .number a
  Storable seen := ∃ a, seen = some a ∧ Scalar.isFinite a
  isSome_decode? v := by
    rw [Option.isSome_map]
    exact scalar.isSome_decode? v
  decode?_encode := by
    rintro _ ⟨a, rfl, ha⟩
    exact congrArg (Option.map some) (scalar.decode?_encode a ha)

lemma scalar_exact : (scalar : Codec α α).Exact := by
  intro a h
  by_contra hn
  have null : scalar.encode a = (.null : Value α) := if_neg hn
  rw [null] at h
  exact nomatch h

omit [Scalar α] in
lemma count_exact : (count : Codec α Nat).Exact := by
  intro n h
  unfold count Value.ofCount Value.count? at h
  dsimp only at h
  split at h
  case isTrue word =>
    show n < UInt64.size
    omega
  case isFalse => cases h

lemma smallest_exact : (smallest : Codec α (Option α)).Exact := by
  intro seen h
  cases seen with
  | none => exact nomatch h
  | some a =>
    obtain ⟨a', ha', e⟩ := Option.map_eq_some_iff.1 h
    cases e
    exact ⟨a, rfl, scalar_exact a ha'⟩

/-- Methods are stored by their names, as text or as the key of an object without data. -/
def method : Codec α Method where
  encode := Method.encode
  decode? := Method.decode?
  Fits v := ∃ m : Method, v = .text m.name ∨ v = .object [(m.name, .null)]
  Storable _ := True
  isSome_decode? v := by
    unfold Method.decode?
    rw [Option.isSome_bind, Option.any_eq_true]
    simp only [Value.caseName?_eq_some_iff, Method.isSome_ofName?]
    constructor
    · rintro ⟨_, hv, m, rfl⟩
      exact ⟨m, hv⟩
    · rintro ⟨m, hv⟩
      exact ⟨m.name, hv, m, rfl⟩
  decode?_encode m _ := by cases m <;> rfl

end Codec

namespace CriteriaSettings

/-- The fields, in the order of their declaration. -/
def fields : List (Field α (CriteriaSettings α)) :=
  [.optional .scalar "eta" eta .default, .optional .scalar "move_limit" moveLimit .default,
    .optional .scalar "lambda_upper" lambdaUpper .default,
    .optional .scalar "bracket_tolerance" bracketTolerance .default,
    .optional .flag "require_bracket" requireBracket .default]

/-- The fields make up the settings. -/
def layout : Layout α (CriteriaSettings α) where
  fields := fields
  build := fun (eta, moveLimit, lambdaUpper, bracketTolerance, requireBracket, _) =>
    ⟨eta, moveLimit, lambdaUpper, bracketTolerance, requireBracket⟩
  encode := encode
  decode? := decode?
  nodup_keys := by
    show keys.Nodup
    decide
  build_of _ := rfl
  of_build _ := rfl
  encode_eq _ := rfl
  decode?_object _ := rfl
  decode?_eq _ := rfl

/-- Which settings can be stored without loss. -/
lemma storedWhole_iff (s : CriteriaSettings α) : StoredWhole fields s ↔
    Scalar.isFinite s.eta ∧ Scalar.isFinite s.moveLimit ∧ Scalar.isFinite s.lambdaUpper ∧
    Scalar.isFinite s.bracketTolerance := by
  unfold StoredWhole fields
  simp only [List.forall_mem_cons, List.not_mem_nil, IsEmpty.forall_iff, implies_true, and_true]
  exact ⟨fun ⟨h₁, h₂, h₃, h₄, _⟩ => ⟨h₁, h₂, h₃, h₄⟩, fun ⟨h₁, h₂, h₃, h₄⟩ => ⟨h₁, h₂, h₃, h₄, trivial⟩⟩

/-- A decoder of these settings completes what it is given by the defaults. -/
lemma completes : Completes (R := CriteriaSettings α) fields .default decode? := by
  refine layout.completes ?_
  simp only [layout, fields, List.forall_mem_cons]
  exact ⟨rfl, rfl, rfl, rfl, rfl, nofun⟩

end CriteriaSettings

/-- Parameters of the optimality-criteria update stored within others. -/
def Codec.criteria : Codec α (CriteriaSettings α) where
  encode := CriteriaSettings.encode
  decode? := CriteriaSettings.decode?
  Fits v := (CriteriaSettings.decode? v).isSome
  Storable := StoredWhole CriteriaSettings.fields
  isSome_decode? _ := Iff.rfl
  decode?_encode := CriteriaSettings.layout.decode?_encode

namespace Settings

/-- The fields, in the order of their declaration. -/
def fields : List (Field α (Settings α)) :=
  [.optional .scalar "asyinit" asyinit .default, .optional .scalar "asyincr" asyincr .default,
    .optional .scalar "asydecr" asydecr .default, .optional .scalar "albefa" albefa .default,
    .optional .scalar "mmamove" mmamove .default, .optional .scalar "raa0" raa0 .default,
    .optional .scalar "epsimin" epsimin .default, .optional .count "dual_max_inner" dualMaxInner .default,
    .optional .count "primal_dual_max_inner" primalDualMaxInner .default,
    .optional .count "max_backtracks" maxBacktracks .default, .optional .method "method" method .default,
    .optional .criteria "oc" oc .default]

/-- The fields make up the settings. -/
def layout : Layout α (Settings α) where
  fields := fields
  build := fun (asyinit, asyincr, asydecr, albefa, mmamove, raa0, epsimin, dual, primalDual, backtracks,
      method, oc, _) =>
    ⟨asyinit, asyincr, asydecr, albefa, mmamove, raa0, epsimin, dual, primalDual, backtracks, method, oc⟩
  encode := encode
  decode? := decode?
  nodup_keys := by
    show keys.Nodup
    decide
  build_of _ := rfl
  of_build _ := rfl
  encode_eq _ := rfl
  decode?_object _ := rfl
  decode?_eq _ := rfl

/-- Which settings can be stored without loss. -/
lemma storedWhole_iff (s : Settings α) : StoredWhole fields s ↔
    Scalar.isFinite s.asyinit ∧ Scalar.isFinite s.asyincr ∧ Scalar.isFinite s.asydecr ∧
    Scalar.isFinite s.albefa ∧ Scalar.isFinite s.mmamove ∧ Scalar.isFinite s.raa0 ∧
    Scalar.isFinite s.epsimin ∧ s.dualMaxInner < UInt64.size ∧ s.primalDualMaxInner < UInt64.size ∧
    s.maxBacktracks < UInt64.size ∧ StoredWhole CriteriaSettings.fields s.oc := by
  unfold StoredWhole fields
  simp only [List.forall_mem_cons, List.not_mem_nil, IsEmpty.forall_iff, implies_true, and_true]
  exact ⟨fun ⟨h₁, h₂, h₃, h₄, h₅, h₆, h₇, h₈, h₉, h₁₀, _, h₁₁⟩ => ⟨h₁, h₂, h₃, h₄, h₅, h₆, h₇, h₈, h₉, h₁₀, h₁₁⟩,
    fun ⟨h₁, h₂, h₃, h₄, h₅, h₆, h₇, h₈, h₉, h₁₀, h₁₁⟩ => ⟨h₁, h₂, h₃, h₄, h₅, h₆, h₇, h₈, h₉, h₁₀, trivial, h₁₁⟩⟩

/-- A decoder of settings completes what it is given by the defaults. -/
lemma completes : Completes (R := Settings α) fields .default decode? := by
  refine layout.completes ?_
  simp only [layout, fields, List.forall_mem_cons]
  exact ⟨rfl, rfl, rfl, rfl, rfl, rfl, rfl, rfl, rfl, rfl, rfl, rfl, nofun⟩

end Settings

namespace Diagnostics

/-- The fields, in the order of their declaration. -/
def fields : List (Field α (Diagnostics α)) :=
  [.required .count "barrier_levels" barrierLevels, .required .count "newton_iterations" newtonIterations,
    .required .count "capped_levels" cappedLevels,
    .required .count "exhausted_line_searches" exhaustedLineSearches,
    .required .scalar "residual_norm" residualNorm, .required .scalar "residual_max" residualMax,
    .required .smallest "min_multiplier" minMultiplier]

/-- The fields make up the diagnostics. -/
def layout : Layout α (Diagnostics α) where
  fields := fields
  build := fun (levels, steps, capped, exhausted, norm, max, seen, _) =>
    ⟨levels, steps, capped, exhausted, norm, max, seen⟩
  encode := encode
  decode? := decode?
  nodup_keys := by
    show keys.Nodup
    decide
  build_of _ := rfl
  of_build _ := rfl
  encode_eq _ := rfl
  decode?_object entries := by
    -- The smallest multiplier is wrapped when the record is built, not when its field is read.
    have smallest (build : Option α → Option (Diagnostics α)) :
        (requiredField entries "min_multiplier" Value.scalar?).bind (fun a => build (some a)) =
          (requiredField entries "min_multiplier" fun v => v.scalar?.map some).bind build := by
      rw [requiredField_map, Option.bind_map]
      rfl
    exact Option.bind_congr fun levels _ => Option.bind_congr fun steps _ => Option.bind_congr fun capped _ =>
      Option.bind_congr fun exhausted _ => Option.bind_congr fun norm _ => Option.bind_congr fun max _ =>
        smallest fun seen => some ⟨levels, steps, capped, exhausted, norm, max, seen⟩
  decode?_eq _ := rfl

/-- The counters of a record can be stored. -/
structure CountersFit (d : Diagnostics α) : Prop where
  barrierLevels : d.barrierLevels < UInt64.size
  newtonIterations : d.newtonIterations < UInt64.size
  cappedLevels : d.cappedLevels < UInt64.size
  exhaustedLineSearches : d.exhaustedLineSearches < UInt64.size

/-- Which diagnostics can be stored without loss. -/
lemma storedWhole_iff (d : Diagnostics α) : StoredWhole fields d ↔
    d.CountersFit ∧ Scalar.isFinite d.residualNorm ∧ Scalar.isFinite d.residualMax ∧
    ∃ a, d.minMultiplier = some a ∧ Scalar.isFinite a := by
  unfold StoredWhole fields
  simp only [List.forall_mem_cons, List.not_mem_nil, IsEmpty.forall_iff, implies_true, and_true]
  exact ⟨fun ⟨h₁, h₂, h₃, h₄, h₅, h₆, h₇⟩ => ⟨⟨h₁, h₂, h₃, h₄⟩, h₅, h₆, h₇⟩,
    fun ⟨⟨h₁, h₂, h₃, h₄⟩, h₅, h₆, h₇⟩ => ⟨h₁, h₂, h₃, h₄, h₅, h₆, h₇⟩⟩

/-- Only diagnostics that can be stored without loss are read back. -/
theorem decode?_encode_iff (d : Diagnostics α) : decode? d.encode = some d ↔ StoredWhole fields d := by
  refine layout.decode?_encode_iff ?_ d
  simp only [layout, fields, List.forall_mem_cons]
  exact ⟨Codec.count_exact, Codec.count_exact, Codec.count_exact, Codec.count_exact, Codec.scalar_exact,
    Codec.scalar_exact, Codec.smallest_exact, nofun⟩

/-- Diagnostics without a smallest multiplier are not read back at all. -/
theorem decode?_encode_of_unseen {d : Diagnostics α} (h : d.minMultiplier = none) :
    decode? d.encode = none := by
  refine Option.eq_none_iff_forall_ne_some.2 fun d' hd => ?_
  have read := layout.decode?_encode_eq_some_iff.1 hd
  simp only [layout, fields, List.forall_mem_cons] at read
  obtain ⟨-, -, -, -, -, -, smallest, -⟩ := read
  have null : (Field.required Codec.smallest "min_multiplier" minMultiplier :
      Field α (Diagnostics α)).get d = none := h
  rw [null] at smallest
  exact nomatch smallest

end Diagnostics

namespace Residual

/-- The fields, in the order of their declaration. -/
def fields : List (Field α (Residual α)) :=
  [.required .scalar "norm" norm, .required .scalar "max" max]

/-- The fields make up the measures. -/
def layout : Layout α (Residual α) where
  fields := fields
  build := fun (norm, max, _) => ⟨norm, max⟩
  encode := encode
  decode? := decode?
  nodup_keys := by
    show keys.Nodup
    decide
  build_of _ := rfl
  of_build _ := rfl
  encode_eq _ := rfl
  decode?_object _ := rfl
  decode?_eq _ := rfl

end Residual

namespace Convergence

/-- The fields, in the order of their declaration. -/
def fields : List (Field α (Convergence α)) :=
  [.required .scalar "change" change, .required .scalar "residual_norm" residualNorm,
    .required .scalar "residual_max" residualMax]

/-- The fields make up the signals. -/
def layout : Layout α (Convergence α) where
  fields := fields
  build := fun (change, norm, max, _) => ⟨change, norm, max⟩
  encode := encode
  decode? := decode?
  nodup_keys := by
    show keys.Nodup
    decide
  build_of _ := rfl
  of_build _ := rfl
  encode_eq _ := rfl
  decode?_object _ := rfl
  decode?_eq _ := rfl

end Convergence

/-- What can be stored without loss is read back, that is, records with finite scalars and with counts that fit
into a word; and the decoders of settings complete what they are given by the defaults. -/
theorem records_read_back :
    (∀ m : Method, Method.decode? (m.encode : Value α) = some m) ∧
    (∀ s : CriteriaSettings α, StoredWhole CriteriaSettings.fields s →
      CriteriaSettings.decode? s.encode = some s) ∧
    (∀ s : Settings α, StoredWhole Settings.fields s → Settings.decode? s.encode = some s) ∧
    (∀ d : Diagnostics α, StoredWhole Diagnostics.fields d → Diagnostics.decode? d.encode = some d) ∧
    (∀ r : Residual α, StoredWhole Residual.fields r → Residual.decode? r.encode = some r) ∧
    (∀ c : Convergence α, StoredWhole Convergence.fields c → Convergence.decode? c.encode = some c) ∧
    Completes (R := CriteriaSettings α) CriteriaSettings.fields .default CriteriaSettings.decode? ∧
    Completes (R := Settings α) Settings.fields .default Settings.decode? :=
  ⟨fun m => (Codec.method (α := α)).decode?_encode m trivial, CriteriaSettings.layout.decode?_encode,
    Settings.layout.decode?_encode, Diagnostics.layout.decode?_encode, Residual.layout.decode?_encode,
    Convergence.layout.decode?_encode, CriteriaSettings.completes, Settings.completes⟩

/-- Two settings, one of them within others, and a key that means nothing. -/
noncomputable def sparse : List (String × Value ℝ) :=
  [("comment", .text "coarse"), ("oc", .object [("eta", .number 0.3)]), ("epsimin", .whole 1)]

theorem sparse_settings_completed :
    StoredWhole Settings.fields (Settings.default : Settings ℝ) ∧
    Settings.decode? (Settings.default : Settings ℝ).encode = some .default ∧
    (sparse.map Prod.fst).Nodup ∧
    (∀ f ∈ (Settings.fields : List (Field ℝ (Settings ℝ))), ∀ v, (f.key, v) ∈ sparse → f.codec.Fits v) ∧
    ∃ s, Settings.decode? (.object sparse) = some s ∧ s.epsimin = 1 ∧ s.asyinit = 0.5 ∧
      CriteriaSettings.decode? (.object [("eta", .number (0.3 : ℝ))]) = some s.oc := by
  obtain ⟨-, -, stored, -, -, -, -, completes⟩ := records_read_back (α := ℝ)
  have whole : StoredWhole Settings.fields (Settings.default : Settings ℝ) := by
    rw [Settings.storedWhole_iff, CriteriaSettings.storedWhole_iff]
    exact ⟨rfl, rfl, rfl, rfl, rfl, rfl, rfl, by decide, by decide, by decide, rfl, rfl, rfl, rfl⟩
  have keys : (sparse.map Prod.fst).Nodup := by
    unfold sparse
    decide
  have fits : ∀ f ∈ (Settings.fields : List (Field ℝ (Settings ℝ))), ∀ v, (f.key, v) ∈ sparse →
      f.codec.Fits v := by
    have whole : Codec.scalar.Fits (.whole 1 : Value ℝ) := .inl ⟨1, rfl⟩
    have nested : Codec.criteria.Fits (.object [("eta", .number (0.3 : ℝ))]) := rfl
    unfold Settings.fields sparse
    simp [Field.optional, whole, nested]
  obtain ⟨s, hs⟩ := Option.isSome_iff_exists.1 ((completes.isSome_iff sparse keys).2 fits)
  have present := completes.present sparse s keys hs
  have missing := completes.missing sparse s hs
  unfold Settings.fields at present missing
  simp only [List.forall_mem_cons] at present missing
  obtain ⟨-, -, -, -, -, -, epsimin, -, -, -, -, oc, -⟩ := present
  obtain ⟨asyinit, -⟩ := missing
  refine ⟨whole, stored _ whole, keys, fits, s, hs, ?_, ?_, ?_⟩
  · have read := epsimin (.whole 1) (by simp [sparse, Field.optional])
    refine (Option.some.inj read).symm.trans ?_
    norm_num
  · exact asyinit (by simp [sparse, Field.optional])
  · exact oc _ (by simp [sparse, Field.optional])

end MovingAsymptotes
