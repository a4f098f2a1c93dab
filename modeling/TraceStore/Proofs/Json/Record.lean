import TraceStore.Json.Record
import Mathlib.Data.List.Forall2

/-!
# Records among JSON values

What the fields of a record hold is stated apart from the reading of them. An object holds the
value of a field if the field is there once, whatever else is there, and an array holds the fields
in order, as far as it goes. The values are then read by their ranges.

* `Json.Holds`, `Json.fields?_eq_some_iff`: the fields that are found are those that are held.
* `Offset.ofJson?_eq_some_iff`, `WriteOptions.ofJson?_eq_some_iff`: the records that are read.
* `Json.Misfits`, `Json.Lacks`: the values that are read as no record.
-/
namespace TraceStore

namespace Json

/-! ### Fields -/

/-- The values of the fields `names`, each missing if it is not there. An object has texts for keys
and each field once at most, in any order and among any others. An array has the fields in order,
and may leave out those at the end. -/
inductive Holds (names : List String) : Json → List (Option Json) → Prop
  | object {members : List (Option String × Json)} {found : List (Option Json)}
      (hkeys : ∀ member ∈ members, member.1 ≠ none)
      (h : List.Forall₂ (fun name value => members.filter (·.1 == some name) =
        value.toList.map (some name, ·)) names found) : Holds names (.object members) found
  | array {items : List Json} (h : items.length ≤ names.length) :
      Holds names (.array items)
        (items.map some ++ List.replicate (names.length - items.length) none)

/-- A list is mapped if each of its items is. -/
private theorem mapM_eq_some_iff {α β : Type} {f : α → Option β} {list : List α} {found : List β} :
    list.mapM f = some found ↔ List.Forall₂ (fun a b => f a = some b) list found := by
  induction list generalizing found with
  | nil => simp [eq_comm]
  | cons a list ih =>
      rw [List.mapM_cons, List.forall₂_cons_left_iff]
      constructor
      · intro h
        obtain ⟨b, hb, h⟩ := Option.bind_eq_some_iff.1 h
        obtain ⟨rest, hrest, h⟩ := Option.bind_eq_some_iff.1 h
        exact ⟨b, rest, hb, ih.1 hrest, (Option.some.inj h).symm⟩
      · rintro ⟨b, rest, hb, hrest, rfl⟩
        rw [hb, Option.bind_eq_bind, Option.bind_some, ih.2 hrest]
        rfl

/-- The member of a name, if there is one and no other. -/
private theorem only_iff {members : List (Option String × Json)} {name : String}
    {found : Option Json} :
    (match members.filter (·.1 == some name) with
      | [] => some none
      | [(_, value)] => some (some value)
      | _ => none) = some found ↔
      members.filter (·.1 == some name) = found.toList.map (some name, ·) := by
  have hname : ∀ member ∈ members.filter (·.1 == some name), member.1 = some name :=
    fun member hmember => by simpa using (List.mem_filter.1 hmember).2
  generalize members.filter (·.1 == some name) = named at hname ⊢
  match named with
  | [] => cases found <;> simp
  | [(key, value)] =>
      obtain rfl : key = some name := hname _ List.mem_cons_self
      cases found <;> simp
  | _ :: _ :: _ => cases found <;> simp

theorem fields?_eq_some_iff {names : List String} {json : Json} {found : List (Option Json)} :
    json.fields? names = some found ↔ json.Holds names found := by
  constructor
  · intro h
    cases json with
    | object members =>
        rw [fields?] at h
        split at h
        · simp at h
        · next hkeys =>
          refine .object (fun member hmember hnone => hkeys ?_)
            ((mapM_eq_some_iff.1 h).imp fun _ _ h => only_iff.1 h)
          exact List.any_eq_true.2 ⟨member, hmember, Option.isNone_iff_eq_none.2 hnone⟩
    | array items =>
        rw [fields?] at h
        split at h
        · next hle =>
          obtain rfl := Option.some.inj h
          exact .array hle
        · simp at h
    | null => simp [fields?] at h
    | bool => simp [fields?] at h
    | number => simp [fields?] at h
    | string => simp [fields?] at h
  · intro h
    cases h with
    | @object members _ hkeys h =>
        have hany : ¬members.any (·.1.isNone) = true := by
          rw [List.any_eq_true]
          rintro ⟨member, hmember, hnone⟩
          exact hkeys member hmember (Option.isNone_iff_eq_none.1 hnone)
        rw [fields?, if_neg hany, mapM_eq_some_iff]
        exact h.imp fun _ _ h => only_iff.2 h
    | array h => rw [fields?, if_pos h]

theorem Holds.length_eq {names : List String} {json : Json} {found : List (Option Json)}
    (h : json.Holds names found) : found.length = names.length := by
  cases h with
  | object _ h => exact h.length_eq.symm
  | array h =>
      rw [List.length_append, List.length_map, List.length_replicate]
      omega

/-! ### Values of fields -/

theorem intBetween?_eq_some_iff {low high n : Int} {value : Json} :
    value.intBetween? low high = some n ↔
      (low ≤ n ∧ n < high) ∧ value = .number (.integer n) := by
  fun_cases intBetween? low high value with
  | case1 m hm =>
      simp only [Option.some.injEq, number.injEq, JsonNumber.integer.injEq]
      exact ⟨fun h => ⟨h ▸ hm, h⟩, fun h => h.2⟩
  | case2 m hm =>
      simp only [reduceCtorEq, number.injEq, JsonNumber.integer.injEq, false_iff]
      rintro ⟨hn, rfl⟩
      exact hm hn
  | case3 _ hother =>
      simp only [reduceCtorEq, false_iff]
      rintro ⟨-, rfl⟩
      exact hother n rfl

/-- The numbers of a type are read by their range, if they are just the integers of that range. -/
private theorem map_intBetween?_eq_some_iff {α : Type} {low high : Int} (ofInt : Int → α)
    (toInt : α → Int) (hof : ∀ x, ofInt (toInt x) = x)
    (hto : ∀ n, low ≤ n → n < high → toInt (ofInt n) = n)
    (hrange : ∀ x, low ≤ toInt x ∧ toInt x < high) {value : Json} {x : α} :
    (value.intBetween? low high).map ofInt = some x ↔ value = .number (.integer (toInt x)) := by
  simp only [Option.map_eq_some_iff, intBetween?_eq_some_iff]
  constructor
  · rintro ⟨n, ⟨⟨hlow, hhigh⟩, rfl⟩, rfl⟩
    rw [hto n hlow hhigh]
  · rintro rfl
    exact ⟨toInt x, ⟨hrange x, rfl⟩, hof x⟩

theorem uint64?_eq_some_iff {value : Json} {x : UInt64} :
    value.uint64? = some x ↔ value = .ofNat x.toNat := by
  refine map_intBetween?_eq_some_iff (fun n => UInt64.ofNat n.toNat) (fun x => x.toNat)
    (fun _ => UInt64.ofNat_toNat) (fun n hlow hhigh => ?_) (fun x => ?_)
  · rw [UInt64.toNat_ofNat']
    omega
  · have hlt := x.toNat_lt
    omega

theorem uint32?_eq_some_iff {value : Json} {x : UInt32} :
    value.uint32? = some x ↔ value = .ofNat x.toNat := by
  refine map_intBetween?_eq_some_iff (fun n => UInt32.ofNat n.toNat) (fun x => x.toNat)
    (fun _ => UInt32.ofNat_toNat) (fun n hlow hhigh => ?_) (fun x => ?_)
  · rw [UInt32.toNat_ofNat']
    omega
  · have hlt := x.toNat_lt
    omega

theorem int32?_eq_some_iff {value : Json} {x : Int32} :
    value.int32? = some x ↔ value = .number (.integer x.toInt) :=
  map_intBetween?_eq_some_iff Int32.ofInt Int32.toInt (fun x => Int32.ofInt_toInt x)
    (fun _ hlow hhigh => Int32.toInt_ofInt_of_le hlow hhigh) fun x => ⟨x.le_toInt, x.toInt_lt⟩

section
variable {α : Type} {read : Json → Option α} {print : α → Json}

/-- A field that must be there. -/
theorem fieldOr_none_eq_some_iff (hread : ∀ value x, read value = some x ↔ value = print x)
    {found : Option Json} {x : α} : fieldOr read none found = some x ↔ found = some (print x) := by
  cases found with
  | none => simp [fieldOr]
  | some value => rw [fieldOr, hread, Option.some_inj]

/-- A field that may be left out. -/
theorem fieldOr_some_eq_some_iff (hread : ∀ value x, read value = some x ↔ value = print x)
    {preset : α} {found : Option Json} {x : α} :
    fieldOr read (some preset) found = some x ↔
      ∃ given : Option α, found = given.map print ∧ x = given.getD preset := by
  cases found with
  | none =>
      simp only [fieldOr, Option.some_inj]
      constructor
      · rintro rfl
        exact ⟨none, rfl, rfl⟩
      · rintro ⟨given, hgiven, rfl⟩
        rw [Option.map_eq_none_iff.1 hgiven.symm, Option.getD_none]
  | some value =>
      rw [fieldOr, hread]
      constructor
      · rintro rfl
        exact ⟨some x, rfl, rfl⟩
      · rintro ⟨given, hgiven, rfl⟩
        obtain ⟨y, rfl, rfl⟩ := Option.map_eq_some_iff.1 hgiven.symm
        rfl

end

/-! ### What is no record -/

/-- A field of a record, and the integers that it may have: from `low` up to but not including
`high`. -/
structure Field where
  name : String
  low : Int
  high : Int

/-- The values that a field may have: plain integers of its range, and so no negative zero. -/
def Field.Takes (field : Field) (value : Json) : Prop :=
  ∃ n : Int, field.low ≤ n ∧ n < field.high ∧ value = .number (.integer n)

theorem takes_uint64 (name : String) (x : UInt64) :
    (Field.mk name 0 (2 ^ 64)).Takes (.ofNat x.toNat) := by
  have hlt := x.toNat_lt
  exact ⟨x.toNat, by dsimp only; omega, by dsimp only; omega, rfl⟩

theorem takes_uint32 (name : String) (x : UInt32) :
    (Field.mk name 0 (2 ^ 32)).Takes (.ofNat x.toNat) := by
  have hlt := x.toNat_lt
  exact ⟨x.toNat, by dsimp only; omega, by dsimp only; omega, rfl⟩

theorem takes_int32 (name : String) (x : Int32) :
    (Field.mk name (-2 ^ 31) (2 ^ 31)).Takes (.number (.integer x.toInt)) :=
  ⟨x.toInt, x.le_toInt, x.toInt_lt, rfl⟩

/-- The value is faulty for every record of these fields: one of them is there twice, or has a value
that it cannot have, or there are too many. -/
inductive Misfits (fields : List Field) : Json → Prop
  | repeated {members : List (Option String × Json)} {field : Field} (hfield : field ∈ fields)
      (h : 2 ≤ members.countP (·.1 == some field.name)) : Misfits fields (.object members)
  | member {members : List (Option String × Json)} {field : Field} {value : Json}
      (hfield : field ∈ fields) (hvalue : (some field.name, value) ∈ members)
      (h : ¬field.Takes value) : Misfits fields (.object members)
  | item {items : List Json} {i : Nat} {field : Field} {value : Json}
      (hfield : fields[i]? = some field) (hvalue : items[i]? = some value)
      (h : ¬field.Takes value) : Misfits fields (.array items)
  | long {items : List Json} (h : fields.length < items.length) : Misfits fields (.array items)

/-- One of the fields is not there. -/
inductive Lacks (fields : List Field) : Json → Prop
  | object {members : List (Option String × Json)} {field : Field} (hfield : field ∈ fields)
      (h : ∀ value, (some field.name, value) ∉ members) : Lacks fields (.object members)
  | array {items : List Json} (h : items.length < fields.length) : Lacks fields (.array items)

section
variable {fields : List Field} {json : Json} {found : List (Option Json)}

private theorem exists_mem_right {α β : Type} {R : α → β → Prop} {as : List α} {bs : List β}
    (h : List.Forall₂ R as bs) {a : α} (ha : a ∈ as) : ∃ b ∈ bs, R a b := by
  induction h with
  | nil => simp at ha
  | cons hab _ ih =>
      rcases List.mem_cons.1 ha with rfl | ha
      · exact ⟨_, List.mem_cons_self, hab⟩
      · obtain ⟨b, hb, hab⟩ := ih ha
        exact ⟨b, List.mem_cons_of_mem _ hb, hab⟩

/-- Fields that hold what they may have, each of them once, are no misfits. -/
theorem Misfits.not_takes (hmisfits : json.Misfits fields)
    (hholds : json.Holds (fields.map Field.name) found) :
    ¬List.Forall₂ (fun field value => ∀ v, value = some v → field.Takes v) fields found := by
  intro htakes
  cases hmisfits with
  | repeated hfield h =>
      obtain ⟨_, hheld⟩ := hholds
      obtain ⟨value, -, hvalue⟩ := exists_mem_right (List.forall₂_map_left_iff.1 hheld) hfield
      rw [List.countP_eq_length_filter, hvalue, List.length_map] at h
      cases value <;> simp at h
  | @member members field v hfield hvalue h =>
      obtain ⟨_, hheld⟩ := hholds
      obtain ⟨value, -, honly, hvalue'⟩ := exists_mem_right
        (List.Forall₂.mp (fun _ _ => And.intro) (List.forall₂_map_left_iff.1 hheld) htakes) hfield
      have hmem : (some field.name, v) ∈ members.filter (·.1 == some field.name) := by
        simpa using hvalue
      rw [honly] at hmem
      exact h (hvalue' v (by simpa [eq_comm] using hmem))
  | @item items i field v hfield hvalue h =>
      cases hholds with
      | array hle =>
          obtain ⟨hi, rfl⟩ := List.getElem?_eq_some_iff.1 hfield
          obtain ⟨hi', rfl⟩ := List.getElem?_eq_some_iff.1 hvalue
          have hlength := htakes.length_eq
          have hget := (List.forall₂_iff_get.1 htakes).2 i hi (hlength ▸ hi)
          refine h (hget items[i] ?_)
          rw [List.get_eq_getElem, List.getElem_append_left (by simpa using hi'), List.getElem_map]
  | long h =>
      cases hholds with
      | array hle =>
          rw [List.length_map] at hle
          omega

/-- A field that is not there is not held. -/
theorem Lacks.none_mem (hlacks : json.Lacks fields)
    (hholds : json.Holds (fields.map Field.name) found) : none ∈ found := by
  cases hlacks with
  | @object members field hfield h =>
      obtain ⟨_, hheld⟩ := hholds
      obtain ⟨value, hmem, hvalue⟩ := exists_mem_right (List.forall₂_map_left_iff.1 hheld) hfield
      cases value with
      | none => exact hmem
      | some v =>
          have hv : (some field.name, v) ∈ members.filter (·.1 == some field.name) := by
            simp [hvalue]
          exact absurd (List.mem_filter.1 hv).1 (h v)
  | array h =>
      obtain ⟨hle⟩ := hholds
      rw [List.length_map]
      exact List.mem_append_right _ (List.mem_replicate.2 ⟨by omega, rfl⟩)

end

end Json

namespace Offset

theorem ofJson?_eq_some_iff {json : Json} {a : Offset} :
    ofJson? json = some a ↔
      json.Holds fieldNames [some (.ofNat a.chunk.toNat), some (.ofNat a.inChunk.toNat)] := by
  constructor
  · intro h
    obtain ⟨found, hfound, h⟩ := Option.bind_eq_some_iff.1 h
    have hholds := Json.fields?_eq_some_iff.1 hfound
    obtain ⟨first, second, rfl⟩ := List.length_eq_two.1 hholds.length_eq
    obtain ⟨chunk, hchunk, h⟩ := Option.bind_eq_some_iff.1 h
    obtain ⟨inChunk, hinChunk, h⟩ := Option.bind_eq_some_iff.1 h
    obtain rfl := Option.some.inj h
    rw [Json.fieldOr_none_eq_some_iff fun _ _ => Json.uint64?_eq_some_iff] at hchunk
    rw [Json.fieldOr_none_eq_some_iff fun _ _ => Json.uint32?_eq_some_iff] at hinChunk
    rwa [hchunk, hinChunk] at hholds
  · intro h
    have hchunk : Json.fieldOr Json.uint64? none (some (.ofNat a.chunk.toNat)) = some a.chunk := by
      rw [Json.fieldOr, Json.uint64?_eq_some_iff]
    have hinChunk : Json.fieldOr Json.uint32? none (some (.ofNat a.inChunk.toNat)) =
        some a.inChunk := by
      rw [Json.fieldOr, Json.uint32?_eq_some_iff]
    rw [ofJson?, Json.fields?_eq_some_iff.2 h, Option.bind_eq_bind, Option.bind_some]
    simp only [hchunk, hinChunk, Option.bind_eq_bind, Option.bind_some, Option.pure_def]

/-- The fields of an offset with their ranges. -/
def fields : List Json.Field := [⟨"chunk", 0, 2 ^ 64⟩, ⟨"offset_in_chunk", 0, 2 ^ 32⟩]

theorem ofJson?_eq_none {json : Json} (h : json.Misfits fields ∨ json.Lacks fields) :
    ofJson? json = none := by
  rw [Option.eq_none_iff_forall_ne_some]
  intro a ha
  have hholds := ofJson?_eq_some_iff.1 ha
  rcases h with hmisfits | hlacks
  · refine hmisfits.not_takes hholds (.cons ?_ (.cons ?_ .nil))
    · rintro _ ⟨⟩
      exact Json.takes_uint64 _ a.chunk
    · rintro _ ⟨⟩
      exact Json.takes_uint32 _ a.inChunk
  · simpa using hlacks.none_mem hholds

end Offset

namespace WriteOptions

theorem ofJson?_eq_some_iff {json : Json} {o : WriteOptions} :
    ofJson? json = some o ↔
      ∃ (chunkSize : Option UInt64) (zlibLevel : Option UInt32) (zstdLevel : Option Int32),
        json.Holds fieldNames [chunkSize.map (.ofNat ·.toNat), zlibLevel.map (.ofNat ·.toNat),
          zstdLevel.map fun level => .number (.integer level.toInt)] ∧
        o = ⟨chunkSize.getD (default : WriteOptions).chunkSize,
          zlibLevel.getD (default : WriteOptions).zlibLevel,
          zstdLevel.getD (default : WriteOptions).zstdLevel⟩ := by
  constructor
  · intro h
    obtain ⟨found, hfound, h⟩ := Option.bind_eq_some_iff.1 h
    have hholds := Json.fields?_eq_some_iff.1 hfound
    obtain ⟨first, second, third, rfl⟩ := List.length_eq_three.1 hholds.length_eq
    obtain ⟨size, hsize, h⟩ := Option.bind_eq_some_iff.1 h
    obtain ⟨zlib, hzlib, h⟩ := Option.bind_eq_some_iff.1 h
    obtain ⟨zstd, hzstd, h⟩ := Option.bind_eq_some_iff.1 h
    obtain rfl := Option.some.inj h
    rw [Json.fieldOr_some_eq_some_iff fun _ _ => Json.uint64?_eq_some_iff] at hsize
    rw [Json.fieldOr_some_eq_some_iff fun _ _ => Json.uint32?_eq_some_iff] at hzlib
    rw [Json.fieldOr_some_eq_some_iff fun _ _ => Json.int32?_eq_some_iff] at hzstd
    obtain ⟨chunkSize, rfl, rfl⟩ := hsize
    obtain ⟨zlibLevel, rfl, rfl⟩ := hzlib
    obtain ⟨zstdLevel, rfl, rfl⟩ := hzstd
    exact ⟨chunkSize, zlibLevel, zstdLevel, hholds, rfl⟩
  · rintro ⟨chunkSize, zlibLevel, zstdLevel, h, rfl⟩
    have hsize := (Json.fieldOr_some_eq_some_iff fun _ _ => Json.uint64?_eq_some_iff).2
      ⟨chunkSize, rfl, (rfl : _ = chunkSize.getD (default : WriteOptions).chunkSize)⟩
    have hzlib := (Json.fieldOr_some_eq_some_iff fun _ _ => Json.uint32?_eq_some_iff).2
      ⟨zlibLevel, rfl, (rfl : _ = zlibLevel.getD (default : WriteOptions).zlibLevel)⟩
    have hzstd := (Json.fieldOr_some_eq_some_iff fun _ _ => Json.int32?_eq_some_iff).2
      ⟨zstdLevel, rfl, (rfl : _ = zstdLevel.getD (default : WriteOptions).zstdLevel)⟩
    simp only [ofJson?, Json.fields?_eq_some_iff.2 h, Option.bind_eq_bind, Option.bind_some,
      hsize, hzlib, hzstd, Option.pure_def]

/-- The fields of write options with their ranges. -/
def fields : List Json.Field :=
  [⟨"chunk_size", 0, 2 ^ 64⟩, ⟨"zlib_level", 0, 2 ^ 32⟩, ⟨"zstd_level", -2 ^ 31, 2 ^ 31⟩]

theorem ofJson?_eq_none {json : Json} (h : json.Misfits fields) : ofJson? json = none := by
  rw [Option.eq_none_iff_forall_ne_some]
  intro o ho
  obtain ⟨chunkSize, zlibLevel, zstdLevel, hholds, -⟩ := ofJson?_eq_some_iff.1 ho
  refine h.not_takes hholds (.cons ?_ (.cons ?_ (.cons ?_ .nil)))
  all_goals
    intro value hvalue
    obtain ⟨x, -, rfl⟩ := Option.map_eq_some_iff.1 hvalue
  · exact Json.takes_uint64 _ x
  · exact Json.takes_uint32 _ x
  · exact Json.takes_int32 _ x

end WriteOptions
end TraceStore
