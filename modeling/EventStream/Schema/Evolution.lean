import EventStream.Schema.Registry

/-! What the compatibility check of the registry buys.

For schemas made of `type`, `properties` and `required`, a version that is accepted admits
every document of the version before it exactly if it narrows nothing: it loses no type, at any
depth, and nested schemas require nothing more (`accepted_version_compatible`). The check itself
looks at the names at the top only. -/
namespace EventStream.Schema

/-! ### Schemas and what they mean -/

/-- The types a document can have. -/
inductive JsonType where
  | null
  | boolean
  | integer
  | number
  | string
  | array
  | object
  deriving DecidableEq, Repr

def JsonType.name : JsonType → String
  | .null => "null"
  | .boolean => "boolean"
  | .integer => "integer"
  | .number => "number"
  | .string => "string"
  | .array => "array"
  | .object => "object"

/-- The `type` keyword: one type, or a list of which one must fit. -/
inductive TypeKeyword where
  | one (t : JsonType)
  | anyOf (ts : List JsonType)
  deriving DecidableEq, Repr

/-- The types of which one must fit. -/
def TypeKeyword.types : TypeKeyword → List JsonType
  | .one t => [t]
  | .anyOf ts => ts

/-- A schema of three keywords, each of which may be absent. -/
inductive JsonSchema where
  | mk (type : Option TypeKeyword) (properties : Option (List (String × JsonSchema)))
    (required : Option (List String))

def JsonSchema.type : JsonSchema → Option TypeKeyword
  | ⟨type, _, _⟩ => type

def JsonSchema.properties : JsonSchema → Option (List (String × JsonSchema))
  | ⟨_, properties, _⟩ => properties

def JsonSchema.required : JsonSchema → Option (List String)
  | ⟨_, _, required⟩ => required

/-- The keyword as it is written in a schema. -/
def TypeKeyword.toJson : TypeKeyword → Json
  | .one t => .str t.name
  | .anyOf ts => .arr (ts.map fun t => .str t.name)

mutual

/-- The schema as the parser gives it, keys in order. -/
def JsonSchema.toJson : JsonSchema → Json
  | ⟨type, properties, required⟩ =>
    .obj ((match properties with
        | some props => [("properties", .obj (propertiesJson props))]
        | none => []) ++
      (match required with
        | some names => [("required", .arr (names.map .str))]
        | none => []) ++
      (match type with
        | some t => [("type", t.toJson)]
        | none => []))

/-- The schemas of the properties, under their names. -/
def propertiesJson : List (String × JsonSchema) → List (String × Json)
  | [] => []
  | (name, schema) :: rest => (name, schema.toJson) :: propertiesJson rest

end

section
variable (isInteger : String → Bool)

/-- Whether a document is of a type; which numbers are integers is a parameter. -/
def JsonType.admits : JsonType → Json → Bool
  | .null, .null => true
  | .boolean, .bool _ => true
  | .integer, .num text => isInteger text
  | .number, .num _ => true
  | .string, .str _ => true
  | .array, .arr _ => true
  | .object, .obj _ => true
  | _, _ => false

/-- `required` constrains objects only. -/
def hasFields (names : List String) : Json → Bool
  | .obj fields => names.all fun name => (fields.lookup name).isSome
  | _ => true

mutual

/-- The usual meaning of the three keywords. -/
def JsonSchema.valid : JsonSchema → Json → Bool
  | ⟨type, properties, required⟩, doc =>
    type.all (fun t => t.types.any (·.admits isInteger doc)) &&
    required.all (hasFields · doc) &&
    (match properties with
      | some props => validProperties props doc
      | none => true)

/-- Each property that the document has is valid; only objects have any. -/
def validProperties : List (String × JsonSchema) → Json → Bool
  | [], _ => true
  | (name, schema) :: rest, doc =>
    (match doc.get name with
      | some value => schema.valid value
      | none => true) && validProperties rest doc

end

end

/-! ### Widening -/

/-- Every document of the first type is one of the second. -/
def JsonType.fits (t t' : JsonType) : Bool := t = t' || (t = .integer && t' = .number)

/-- Whether the `type` keyword lets documents of a type through. -/
def JsonSchema.allows (s : JsonSchema) (t : JsonType) : Bool :=
  s.type.all fun k => k.types.any (t.fits ·)

/-- What a schema says about the property of a name. -/
def JsonSchema.named (name : String) (s : JsonSchema) : List JsonSchema :=
  ((s.properties.getD []).filter (·.1 = name)).map Prod.snd

section
variable (isInteger : String → Bool)

/-- The narrowest type of a document. -/
def Json.kind : Json → JsonType
  | .null => .null
  | .bool _ => .boolean
  | .num text => if isInteger text then .integer else .number
  | .str _ => .string
  | .arr _ => .array
  | .obj _ => .object

/-- Some object is valid under all the schemas. -/
def AdmitsObject (olds : List JsonSchema) : Prop :=
  ∃ fields, ∀ o ∈ olds, o.valid isInteger (.obj fields) = true

mutual

/-- The schema narrows nothing of what all of `olds` admit: it lets their types through, and, if
they admit objects, it requires nothing more and narrows no property. -/
def JsonSchema.Widens : JsonSchema → List JsonSchema → Prop
  | ⟨type, properties, required⟩, olds =>
    (∀ t, t ≠ .object → (∀ o ∈ olds, o.allows t = true) →
      type.all (fun k => k.types.any (t.fits ·)) = true) ∧
    (AdmitsObject isInteger olds → type.all (fun k => k.types.any (JsonType.object.fits ·)) = true ∧
      (∀ name ∈ required.getD [], ∃ o ∈ olds, name ∈ o.required.getD []) ∧
      match properties with
      | some props => WidensProperties props olds
      | none => True)

/-- No property is narrowed, each against what the old schemas say of its name. -/
def WidensProperties : List (String × JsonSchema) → List JsonSchema → Prop
  | [], _ => True
  | (name, schema) :: rest, olds =>
    schema.Widens (olds.flatMap (·.named name)) ∧ WidensProperties rest olds

end

end

section
variable {isInteger : String → Bool} {olds : List JsonSchema} {fields : List (String × Json)}
  {name : String}

theorem widens_def (type : Option TypeKeyword) (properties : Option (List (String × JsonSchema)))
    (required : Option (List String)) (olds : List JsonSchema) :
    (JsonSchema.mk type properties required).Widens isInteger olds ↔
      (∀ t, t ≠ .object → (∀ o ∈ olds, o.allows t = true) →
        (JsonSchema.mk type properties required).allows t = true) ∧
      (AdmitsObject isInteger olds →
        (JsonSchema.mk type properties required).allows .object = true ∧
        (∀ name ∈ required.getD [], ∃ o ∈ olds, name ∈ o.required.getD []) ∧
        WidensProperties isInteger (properties.getD []) olds) := by
  cases properties <;>
    simp [JsonSchema.Widens, WidensProperties, JsonSchema.allows, JsonSchema.type]

theorem admits_eq (t : JsonType) (doc : Json) :
    t.admits isInteger doc = (doc.kind isInteger).fits t := by
  cases doc with
  | num text =>
    cases h : isInteger text <;> cases t <;> simp [JsonType.admits, Json.kind, h] <;> rfl
  | _ => cases t <;> rfl

theorem kind_object {doc : Json} : doc.kind isInteger = .object ↔ ∃ fields, doc = .obj fields := by
  cases doc with
  | num text => cases h : isInteger text <;> simp [Json.kind, h]
  | _ => simp [Json.kind]

theorem validProperties_iff (props : List (String × JsonSchema)) (doc : Json) :
    validProperties isInteger props doc = true ↔
      ∀ p ∈ props, ∀ value, doc.get p.1 = some value → p.2.valid isInteger value = true := by
  induction props with
  | nil => simp [validProperties]
  | cons p props ih =>
    rw [validProperties, Bool.and_eq_true, ih, List.forall_mem_cons]
    cases doc.get p.1 <;> simp

/-- What makes a document valid: its type and, of an object, its fields. -/
theorem valid_iff (s : JsonSchema) (doc : Json) : s.valid isInteger doc = true ↔
    s.allows (doc.kind isInteger) = true ∧ ∀ fields, doc = .obj fields →
      (∀ name ∈ s.required.getD [], (fields.lookup name).isSome) ∧
      ∀ p ∈ s.properties.getD [], ∀ value, fields.lookup p.1 = some value →
        p.2.valid isInteger value = true := by
  obtain ⟨type, properties, required⟩ := s
  have hvalid : (JsonSchema.mk type properties required).valid isInteger doc =
      (type.all (fun t => t.types.any (·.admits isInteger doc)) &&
        required.all (hasFields · doc) &&
        validProperties isInteger (properties.getD []) doc) := by
    cases properties <;> simp [JsonSchema.valid, validProperties]
  rw [hvalid, Bool.and_eq_true, Bool.and_eq_true, validProperties_iff]
  simp only [admits_eq, JsonSchema.allows, JsonSchema.type, JsonSchema.required,
    JsonSchema.properties, and_assoc]
  refine and_congr_right fun _ => ?_
  cases doc with
  | obj fields => cases required <;> simp [hasFields, Json.get]
  | _ => cases required <;> simp [hasFields, Json.get]

theorem mem_named {s o : JsonSchema} : o ∈ s.named name ↔ (name, o) ∈ s.properties.getD [] := by
  simp [JsonSchema.named]

mutual

theorem valid_of_widens : ∀ (new : JsonSchema) (olds : List JsonSchema) (doc : Json),
    new.Widens isInteger olds → (∀ o ∈ olds, o.valid isInteger doc = true) →
    new.valid isInteger doc = true
  | ⟨type, properties, required⟩, olds, doc, h, hdoc => by
    rw [widens_def] at h
    rw [valid_iff]
    by_cases hkind : doc.kind isInteger = .object
    · obtain ⟨fields, rfl⟩ := kind_object.mp hkind
      obtain ⟨htype, hreq, hprops⟩ := h.2 ⟨fields, hdoc⟩
      refine ⟨htype, fun _ heq => ?_⟩
      cases heq
      refine ⟨fun name hname => ?_, ?_⟩
      · obtain ⟨o, ho, hname⟩ := hreq name hname
        exact (((valid_iff o _).mp (hdoc o ho)).2 fields rfl).1 name hname
      · cases properties with
        | none => exact fun p hp => absurd hp List.not_mem_nil
        | some props => exact valid_of_widensProperties props olds fields hprops hdoc
    · refine ⟨h.1 _ hkind fun o ho => ((valid_iff o doc).mp (hdoc o ho)).1, ?_⟩
      rintro fields rfl
      exact absurd rfl hkind

theorem valid_of_widensProperties : ∀ (props : List (String × JsonSchema))
    (olds : List JsonSchema) (fields : List (String × Json)),
    WidensProperties isInteger props olds →
    (∀ o ∈ olds, o.valid isInteger (.obj fields) = true) →
    ∀ p ∈ props, ∀ value, fields.lookup p.1 = some value → p.2.valid isInteger value = true
  | [], _, _, _, _ => fun p hp => absurd hp List.not_mem_nil
  | (name, s) :: rest, olds, fields, h, hdoc => by
    rw [WidensProperties] at h
    rw [List.forall_mem_cons]
    refine ⟨fun value hvalue => valid_of_widens s _ value h.1 fun o ho => ?_,
      valid_of_widensProperties rest olds fields h.2 hdoc⟩
    obtain ⟨old, hold, ho⟩ := List.mem_flatMap.mp ho
    exact (((valid_iff old _).mp (hdoc old hold)).2 fields rfl).2 _ (mem_named.mp ho) value hvalue

end

/-! ### Nothing less will do -/

theorem lookup_erase (fields : List (String × Json)) (name n : String) :
    (fields.filter (·.1 ≠ name)).lookup n = if n = name then none else fields.lookup n := by
  induction fields with
  | nil => simp
  | cons f fields ih =>
    by_cases hf : f.1 = name
    · rw [List.filter_cons_of_neg (by simpa using hf), ih, List.lookup_cons, hf]
      by_cases hn : n = name
      · rw [if_pos hn, if_pos hn]
      · rw [if_neg hn, if_neg hn, beq_false_of_ne hn]
    · rw [List.filter_cons_of_pos (by simpa using hf), List.lookup_cons, List.lookup_cons, ih]
      by_cases hn : n = f.1
      · simp [hn, hf]
      · rw [beq_false_of_ne hn]

/-- A field that is not required may be missing. -/
theorem valid_erase {o : JsonSchema} (h : o.valid isInteger (.obj fields) = true)
    (hname : name ∉ o.required.getD []) :
    o.valid isInteger (.obj (fields.filter (·.1 ≠ name))) = true := by
  rw [valid_iff] at h ⊢
  refine ⟨h.1, fun _ heq => ?_⟩
  cases heq
  obtain ⟨hreq, hprops⟩ := h.2 fields rfl
  refine ⟨fun n hn => ?_, fun p hp value hvalue => ?_⟩
  · have hne : n ≠ name := by
      rintro rfl
      exact hname hn
    rw [lookup_erase, if_neg hne]
    exact hreq n hn
  · rw [lookup_erase] at hvalue
    split at hvalue
    · cases hvalue
    · exact hprops p hp value hvalue

/-- A field may have any value that is valid for it. -/
theorem valid_cons {o : JsonSchema} (h : o.valid isInteger (.obj fields) = true) {value : Json}
    (hvalue : ∀ s ∈ o.named name, s.valid isInteger value = true) :
    o.valid isInteger (.obj ((name, value) :: fields)) = true := by
  rw [valid_iff] at h ⊢
  refine ⟨h.1, fun _ heq => ?_⟩
  cases heq
  obtain ⟨hreq, hprops⟩ := h.2 fields rfl
  refine ⟨fun n hn => ?_, fun p hp v hv => ?_⟩
  · rw [List.lookup_cons]
    split
    · rfl
    · exact hreq n hn
  · rw [List.lookup_cons] at hv
    split at hv
    · rename_i hsame
      cases hv
      exact hvalue p.2 (mem_named.mpr (beq_iff_eq.mp hsame ▸ hp))
    · exact hprops p hp v hv

/-- There are documents of every type. -/
theorem exists_kind (hint : ∃ text, isInteger text = true) (hnum : ∃ text, isInteger text = false)
    (t : JsonType) : ∃ doc : Json, doc.kind isInteger = t := by
  obtain ⟨i, hi⟩ := hint
  obtain ⟨n, hn⟩ := hnum
  cases t with
  | null => exact ⟨.null, rfl⟩
  | boolean => exact ⟨.bool true, rfl⟩
  | integer => exact ⟨.num i, by simp [Json.kind, hi]⟩
  | number => exact ⟨.num n, by simp [Json.kind, hn]⟩
  | string => exact ⟨.str "", rfl⟩
  | array => exact ⟨.arr [], rfl⟩
  | object => exact ⟨.obj [], rfl⟩

mutual

theorem widens_of_valid (hkinds : ∀ t, ∃ doc : Json, doc.kind isInteger = t) :
    ∀ (new : JsonSchema) (olds : List JsonSchema),
      (∀ doc, (∀ o ∈ olds, o.valid isInteger doc = true) → new.valid isInteger doc = true) →
        new.Widens isInteger olds
  | ⟨type, properties, required⟩, olds, h => by
    rw [widens_def]
    refine ⟨fun t hobj ht => ?_, fun ⟨fields, hfields⟩ => ⟨?_, fun name hname => ?_, ?_⟩⟩
    · obtain ⟨doc, rfl⟩ := hkinds t
      refine ((valid_iff _ doc).mp (h doc fun o ho => ?_)).1
      rw [valid_iff]
      refine ⟨ht o ho, ?_⟩
      rintro fields rfl
      exact absurd rfl hobj
    · exact ((valid_iff _ _).mp (h _ hfields)).1
    · by_contra hnot
      have hvalid := h _ fun o ho => valid_erase (hfields o ho) fun hin => hnot ⟨o, ho, hin⟩
      have hsome := (((valid_iff _ _).mp hvalid).2 _ rfl).1 name hname
      rw [lookup_erase, if_pos rfl] at hsome
      cases hsome
    · cases properties with
      | none => trivial
      | some props =>
        exact widensProperties_of_valid hkinds props olds fields hfields fun fields hfields =>
          (((valid_iff _ _).mp (h _ hfields)).2 fields rfl).2

theorem widensProperties_of_valid (hkinds : ∀ t, ∃ doc : Json, doc.kind isInteger = t) :
    ∀ (props : List (String × JsonSchema)) (olds : List JsonSchema)
    (fields : List (String × Json)),
    (∀ o ∈ olds, o.valid isInteger (.obj fields) = true) →
    (∀ fields, (∀ o ∈ olds, o.valid isInteger (.obj fields) = true) → ∀ p ∈ props, ∀ value,
      fields.lookup p.1 = some value → p.2.valid isInteger value = true) →
    WidensProperties isInteger props olds
  | [], _, _, _, _ => by rw [WidensProperties]; trivial
  | (name, s) :: rest, olds, fields, hfields, h => by
    rw [WidensProperties]
    refine ⟨widens_of_valid hkinds s _ fun value hvalue => ?_, widensProperties_of_valid hkinds rest
      olds fields hfields fun fields hfields p hp => h fields hfields p (List.mem_cons_of_mem _ hp)⟩
    refine h ((name, value) :: fields) (fun o ho => ?_) (name, s) List.mem_cons_self value
      (by rw [List.lookup_cons, beq_self_eq_true])
    exact valid_cons (hfields o ho) fun old hold => hvalue old (List.mem_flatMap.mpr ⟨o, ho, hold⟩)

end

end

/-! ### What the registry checks -/

theorem requiredFields_toJson (s : JsonSchema) : requiredFields s.toJson = s.required.getD [] := by
  obtain ⟨type, properties, required⟩ := s
  have hstrs : ∀ names : List String, (names.map Json.str).filterMap Json.asStr = names := by
    intro names
    rw [List.filterMap_map]
    exact List.filterMap_some
  rw [requiredFields, JsonSchema.required]
  cases properties <;> cases required <;> cases type <;>
    simp [JsonSchema.toJson, Json.get, List.lookup_cons, Json.asArray, hstrs]

/-- An accepted version requires nothing new at the top. -/
theorem required_subset_of_checkCompatible {old new : JsonSchema}
    (h : checkCompatible old.toJson new.toJson = .ok ()) :
    ∀ name ∈ new.required.getD [], name ∈ old.required.getD [] := by
  unfold checkCompatible at h
  rw [requiredFields_toJson, requiredFields_toJson] at h
  split at h
  · cases h
  · rename_i hnone
    intro name hname
    have := List.find?_eq_none.mp hnone name hname
    simpa using this

/-- An accepted version of a subject that has one passed the check against it. -/
theorem compatible_of_check {fromStr : String → Except String Json} {s : SchemaStore}
    {subject schema : String} {kind : SchemaType} {prev : SchemaEntry}
    (h : s.check fromStr subject "json_schema" schema = .ok kind)
    (hprev : s.latestVersion subject = some prev) :
    checkCompatibility fromStr prev.schema schema = .ok () := by
  obtain ⟨id, hid, hget⟩ := Option.bind_eq_some_iff.mp hprev
  unfold SchemaStore.check at h
  have h := ok_of_guard (ok_of_guard h)
  simp only [SchemaType.parse, hid, hget, if_true] at h
  obtain ⟨_, -, h⟩ := bind_eq_ok.mp (ok_of_guard (ok_of_guard h))
  obtain ⟨_, hcompat, -⟩ := bind_eq_ok.mp h
  exact hcompat

/-- The new version loses no type and, if the old one admits objects, narrows no property of
them, at any depth. -/
def NoNarrowing (isInteger : String → Bool) (old new : JsonSchema) : Prop :=
  (∀ t, t ≠ .object → old.allows t = true → new.allows t = true) ∧
  (AdmitsObject isInteger [old] → new.allows .object = true ∧
    WidensProperties isInteger (new.properties.getD []) [old])

/-- With what the check asks for, narrowing nothing at the top is all there is. -/
theorem widens_iff {isInteger : String → Bool} {old new : JsonSchema}
    (hreq : ∀ name ∈ new.required.getD [], name ∈ old.required.getD []) :
    new.Widens isInteger [old] ↔ NoNarrowing isInteger old new := by
  obtain ⟨type, properties, required⟩ := new
  rw [widens_def, NoNarrowing]
  simp only [List.mem_singleton, forall_eq, exists_eq_left]
  exact and_congr_right fun _ => forall_congr' fun _ => and_congr_right fun _ => and_iff_right hreq

/-- **Accepted versions are compatible** exactly if they narrow nothing: for every version of a
subject that is accepted, every document valid under the version before is valid under the new one
if and only if the new version loses no type, at any depth, and its nested schemas require nothing
more; for the top the check of the registry sees to that. -/
theorem accepted_version_compatible {fromStr : String → Except String Json}
    {isInteger : String → Bool} (hint : ∃ text, isInteger text = true)
    (hnum : ∃ text, isInteger text = false) {s : SchemaStore} {subject schema : String}
    {kind : SchemaType} {prev : SchemaEntry} {old new : JsonSchema}
    (haccept : s.check fromStr subject "json_schema" schema = .ok kind)
    (hprev : s.latestVersion subject = some prev)
    (hold : fromStr prev.schema = .ok old.toJson) (hnew : fromStr schema = .ok new.toJson) :
    (∀ doc, old.valid isInteger doc = true → new.valid isInteger doc = true) ↔
      NoNarrowing isInteger old new := by
  have hcheck := compatible_of_check haccept hprev
  unfold checkCompatibility at hcheck
  rw [hold, hnew] at hcheck
  rw [← widens_iff (required_subset_of_checkCompatible hcheck)]
  constructor
  · exact fun h => widens_of_valid (exists_kind hint hnum) new [old] fun doc hdoc =>
      h doc (hdoc old List.mem_cons_self)
  · intro h doc hdoc
    exact valid_of_widens new [old] doc h fun o ho => List.mem_singleton.mp ho ▸ hdoc

/-- An object whose `total` is of one type. -/
def totalSchema (t : JsonType) : JsonSchema :=
  ⟨some (.one .object), some [("total", ⟨some (.one t), none, none⟩)], none⟩

/-- Its text. -/
def totalText (t : JsonType) : String :=
  "\x7b\"type\":\"object\",\"properties\":\x7b\"total\":\x7b\"type\":\"" ++ t.name ++
    "\"\x7d\x7d\x7d"

/-- A parser, as far as these texts go. -/
def totalFromStr (text : String) : Except String Json :=
  match [JsonType.string, .integer, .number].find? (totalText · = text) with
  | some t => .ok (totalSchema t).toJson
  | none => .error "expected value"

/-- The registry with one version of the subject. -/
def totalStore (t : JsonType) : SchemaStore :=
  ((SchemaStore.open none).add "orders" .jsonSchema (totalText t) 0).2

/-- The type of a property is widened. -/
theorem accepted_version_compatible_number :
    (totalStore .integer).check totalFromStr "orders" "json_schema" (totalText .number) =
      .ok .jsonSchema ∧
    ∀ doc, (totalSchema .integer).valid (· ≠ "0.5") doc = true →
      (totalSchema .number).valid (· ≠ "0.5") doc = true := by
  have haccept : (totalStore .integer).check totalFromStr "orders" "json_schema"
      (totalText .number) = .ok .jsonSchema := by decide +kernel
  have hprev : (totalStore .integer).latestVersion "orders" =
      some ⟨1, "orders", .jsonSchema, totalText .integer, 0⟩ := by decide +kernel
  have hold : totalFromStr (totalText .integer) = .ok (totalSchema .integer).toJson := rfl
  refine ⟨haccept, (accepted_version_compatible ⟨"1", by decide⟩ ⟨"0.5", by decide⟩ haccept hprev
    hold rfl).mpr ?_⟩
  have hnamed : (⟨some (.one .integer), none, none⟩ : JsonSchema) ∈
      [totalSchema .integer].flatMap (·.named "total") := by
    simp [JsonSchema.named, totalSchema, JsonSchema.properties]
  refine ⟨fun t _ => by cases t <;> decide, fun _ => ⟨rfl, ⟨(widens_def ..).mpr ⟨?_, ?_⟩, trivial⟩⟩⟩
  · intro t _ ht
    have hold := ht _ hnamed
    cases t <;> first | rfl | cases hold
  · rintro ⟨fields, hfields⟩
    cases hfields _ hnamed

/-- The type of a property is changed from string to integer: the version is accepted, and a
document of the version before is not valid any more. -/
theorem narrowed_version_accepted :
    (totalStore .string).check totalFromStr "orders" "json_schema" (totalText .integer) =
      .ok .jsonSchema ∧
    (totalStore .string).latestVersion "orders" =
      some ⟨1, "orders", .jsonSchema, totalText .string, 0⟩ ∧
    totalFromStr (totalText .string) = .ok (totalSchema .string).toJson ∧
    totalFromStr (totalText .integer) = .ok (totalSchema .integer).toJson ∧
    (totalSchema .string).valid (fun _ => true) (.obj [("total", .str "ten")]) = true ∧
    (totalSchema .integer).valid (fun _ => true) (.obj [("total", .str "ten")]) = false := by
  exact ⟨by decide +kernel, by decide +kernel, rfl, rfl, by decide, by decide⟩

end EventStream.Schema
