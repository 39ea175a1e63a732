import Bubbly.Parser.Cty

/-!
# The importer resource

`Importer.Apply` decodes the importer's spec from its HCL body, makes the source its type names
(`jsonSource` or `xmlSource`), decodes the source's own block into it, and resolves it. A JSON
source reads its file, unmarshals the contents, and converts the data to a cty value of the
declared format; an XML source is not implemented. HCL decoding, file reading, JSON unmarshalling
and the conversion to cty are library code, and parameters here.

**Theorem (`apply_success_iff`).** `Apply` succeeds exactly when the spec and the source decode,
the type is `json`, the file reads and its contents unmarshal. The value is then the data
converted to the format, or `cty.NilVal` when the conversion fails, since `Resolve` drops the
conversion's error. `Apply` never reports a nil source: `decode` sets the source whenever it
returns without an error. The check for a nil importer before it has no counterpart here, since
`decode` dereferences the importer first and panics on a nil one.
-/

namespace Bubbly

open Cty

inductive ResourceOutputStatus
  | success
  | failure
  deriving DecidableEq, Repr

structure ResourceOutput where
  status : ResourceOutputStatus
  error : Option String
  value : Value
  deriving DecidableEq, Repr

def jsonImporterType : String := "json"

def xmlImporterType : String := "xml"

/-- An importer's `source`: a `jsonSource` or an `xmlSource`, with the `File` and the `Format`
decoded into it. -/
inductive ImporterSource
  | json (file : String) (format : CtyType)
  | xml (file : String) (format : CtyType)

/-- An `Importer`: the text `String()` gives for its resource block, the HCL body of its spec,
and the fields of `importerSpec` that `Apply` reads. -/
structure Importer (Body : Type) where
  name : String
  specBody : Body
  type : String
  sourceBody : Body
  source : Option ImporterSource

section Apply

variable {Body Bytes Json : Type}
  (decodeSpec : Body → Except String (String × Body))
  (decodeSource : Body → Except String (String × CtyType))
  (readFile : String → Except String Bytes) (unmarshal : Bytes → Except String Json)
  (toCtyValue : Json → CtyType → Except String Value)

/-- The `switch` of `decode` on the importer's type: the source it makes, `jsonSource` or
`xmlSource`; `none` where it panics. -/
def makeSource (type : String) : Option (String → CtyType → ImporterSource) :=
  if type = jsonImporterType then some .json
  else if type = xmlImporterType then some .xml
  else none

/-- `i.decode`, with `decodeSpec` the decoding of the spec's body (its `type` and the body of its
`source` block) and `decodeSource` that of a source's body (its `file` and `format`). `none` where
it panics; otherwise the importer as `decode` leaves it, and its error. A source whose body fails
to decode is left as made, empty. -/
def Importer.decode (i : Importer Body) : Option (Importer Body × Option String) :=
  match decodeSpec i.specBody with
  | .error e => some (i, some ("Failed to decode \"" ++ i.name ++ "\" body spec: " ++ e))
  | .ok (type, sourceBody) =>
    let i := { i with type, sourceBody }
    (makeSource type).map fun make =>
      match decodeSource sourceBody with
      | .error e =>
        ({ i with source := some (make "" .other) }, some ("Failed to decode importer source: " ++ e))
      | .ok (file, format) => ({ i with source := some (make file format) }, none)

/-- `Resolve` of a source: for JSON, `ioutil.ReadFile`, `json.Unmarshal` and
`gocty.ToCtyValue`, whose error is dropped for `cty.NilVal`; for XML, an error. -/
def ImporterSource.resolve : ImporterSource → Except String Value
  | .json file format =>
    match readFile file with
    | .error e => .error e
    | .ok barr =>
      match unmarshal barr with
      | .error e => .error e
      | .ok data =>
        match toCtyValue data format with
        | .error _ => .ok nilVal
        | .ok val => .ok val
  | .xml _ _ => .error "not implemented"

/-- The last two returns of `Apply`, on what `Resolve` gave. -/
def resolvedOutput : Except String Value → ResourceOutput
  | .error e => ⟨.failure, some ("Failed to resolve importer source: " ++ e), nilVal⟩
  | .ok val => ⟨.success, none, val⟩

/-- `i.Apply`; `none` where it panics. -/
def Importer.apply : Option (Importer Body) → Option ResourceOutput
  | none => none
  | some i =>
    (i.decode decodeSpec decodeSource).map fun (i, err) =>
      match err with
      | some e => ⟨.failure, some ("Failed to decode resource " ++ i.name ++ ": " ++ e), nilVal⟩
      | none =>
        match i.source with
        | none => ⟨.failure, some "Cannot get output of an importer with null source", nilVal⟩
        | some src => resolvedOutput (src.resolve readFile unmarshal toCtyValue)

@[simp] theorem makeSource_json : makeSource jsonImporterType = some .json :=
  rfl

@[simp] theorem makeSource_xml : makeSource xmlImporterType = some .xml :=
  rfl

theorem resolve_json_eq_ok {file : String} {format : CtyType} {val : Value} :
    (ImporterSource.json file format).resolve readFile unmarshal toCtyValue = .ok val ↔
      ∃ barr data, readFile file = .ok barr ∧ unmarshal barr = .ok data ∧
        val = ((toCtyValue data format).toOption).getD nilVal := by
  simp only [ImporterSource.resolve]
  cases hr : readFile file with
  | error e => simp
  | ok barr =>
    cases hu : unmarshal barr with
    | error e => simp [hu]
    | ok data => cases ht : toCtyValue data format <;> simp [hu, ht, Except.toOption, eq_comm]

/-- **What an importer yields.** `Apply` succeeds exactly when the spec and the source decode,
the type is `json`, the file reads and its contents unmarshal; the value is the data converted to
the format, or `cty.NilVal` when the conversion fails. No run of `Apply` reports a nil source. -/
theorem apply_success_iff (i : Importer Body) (out : ResourceOutput) :
    (Importer.apply decodeSpec decodeSource readFile unmarshal toCtyValue (some i) = some out ∧
        out.status = .success ↔
      ∃ sb file format barr data, decodeSpec i.specBody = .ok (jsonImporterType, sb) ∧
        decodeSource sb = .ok (file, format) ∧ readFile file = .ok barr ∧
        unmarshal barr = .ok data ∧
        out = ⟨.success, none, ((toCtyValue data format).toOption).getD nilVal⟩) ∧
    (Importer.apply decodeSpec decodeSource readFile unmarshal toCtyValue (some i) = some out →
      out.error ≠ some "Cannot get output of an importer with null source") := by
  have hfailure : ∀ {m : String} {P : Prop}, m.data.head? = some 'F' → ¬ P →
      ((⟨.failure, some m, nilVal⟩ = out ∧ out.status = .success ↔ P) ∧
        (⟨.failure, some m, nilVal⟩ = out →
          out.error ≠ some "Cannot get output of an importer with null source")) := by
    rintro m P hm hP
    refine ⟨⟨fun ⟨h, hs⟩ => (by subst h; cases hs), fun h => absurd h hP⟩, ?_⟩
    rintro rfl h
    simpa [hm] using congrArg (fun s : String => s.data.head?) (Option.some.inj h)
  unfold Importer.apply Importer.decode
  cases hs : decodeSpec i.specBody with
  | error e =>
    simp only [hs, Option.map_some', Option.some.injEq]
    exact hfailure (by simp) (by simp)
  | ok p =>
    obtain ⟨type, sb⟩ := p
    by_cases hj : type = jsonImporterType
    · subst hj
      cases hd : decodeSource sb with
      | error e =>
        simp only [hs, hd, makeSource_json, Option.map_some', Option.some.injEq]
        exact hfailure (by simp) (by simp [hd])
      | ok q =>
        obtain ⟨file, format⟩ := q
        simp only [hs, hd, makeSource_json, Option.map_some', Option.some.injEq]
        cases hr : (ImporterSource.json file format).resolve readFile unmarshal toCtyValue with
        | error e =>
          refine hfailure (by simp) ?_
          rintro ⟨sb', file', format', barr, data, h₁, h₂, hb, hu, -⟩
          obtain ⟨-, rfl⟩ := Prod.mk.inj (Except.ok.inj h₁)
          obtain ⟨rfl, rfl⟩ := Prod.mk.inj (Except.ok.inj (hd.symm.trans h₂))
          simp only [ImporterSource.resolve, hb, hu] at hr
          split at hr <;> cases hr
        | ok val =>
          obtain ⟨barr, data, hb, hu, rfl⟩ := (resolve_json_eq_ok readFile unmarshal toCtyValue).mp hr
          simp only [resolvedOutput]
          refine ⟨⟨fun ⟨h, _⟩ => ⟨sb, file, format, barr, data, rfl, hd, hb, hu, h.symm⟩, ?_⟩, ?_⟩
          · rintro ⟨sb', file', format', barr', data', h₁, h₂, hb', hu', rfl⟩
            simp_all
          · rintro rfl
            simp
    · by_cases hx : type = xmlImporterType
      · subst hx
        have hxj : xmlImporterType ≠ jsonImporterType := by decide
        cases hd : decodeSource sb <;>
          simp only [hs, hd, makeSource_xml, Option.map_some', Option.some.injEq] <;>
          exact hfailure (by simp) (by simp [hxj])
      · have hm : makeSource type = none := by simp [makeSource, hj, hx]
        simp [hs, hm, hj]

/-- A JSON importer whose data does not convert to its format succeeds, with `cty.NilVal`. -/
theorem apply_format_mismatch :
    Importer.apply (fun _ => .ok (jsonImporterType, ())) (fun _ => .ok ("data.json", .other))
        (fun _ => .ok ()) (fun _ => .ok ()) (fun _ _ => (.error "mismatch" : Except String Value))
        (some ⟨"importer", (), "", (), none⟩) = some ⟨.success, none, nilVal⟩ :=
  ((apply_success_iff _ _ _ _ _ _ _).1.2 ⟨(), "data.json", .other, (), (), rfl, rfl, rfl, rfl, rfl⟩).1

end Apply

end Bubbly
