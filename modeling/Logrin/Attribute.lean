import Logrin.Logger
import Logrin.OpenTelemetry
import Logrin.PatternJoin
import Mathlib.Algebra.Group.Int.Defs

/-!
The constructors of `AttributeValue`, the one that overload resolution selects, and which
signed numbers come out of every renderer as they went in.
-/

namespace Logrin
open Logrin.Library
open Logrin.Pattern (Env ParsedPattern Segment)

namespace AttributeValue

/-- The types of arguments that `With` is given. -/
inductive ArgType where
  | bool
  | int8
  | int16
  | int32
  | int64
  | uint8
  | uint16
  | uint32
  | uint64
  | double
  | str
  /-- any other class -/
  | other
  deriving DecidableEq

inductive Arg where
  | bool (value : Bool)
  | int8 (value : Int8)
  | int16 (value : Int16)
  | int32 (value : Int32)
  | int64 (value : Int64)
  | uint8 (value : UInt8)
  | uint16 (value : UInt16)
  | uint32 (value : UInt32)
  | uint64 (value : UInt64)
  | double (value : Double)
  | str (value : Bytes)
  /-- an object, given what `violet::ToString` makes of it -/
  | other (text : Bytes)

def Arg.type : Arg → ArgType
  | .bool _ => .bool
  | .int8 _ => .int8
  | .int16 _ => .int16
  | .int32 _ => .int32
  | .int64 _ => .int64
  | .uint8 _ => .uint8
  | .uint16 _ => .uint16
  | .uint32 _ => .uint32
  | .uint64 _ => .uint64
  | .double _ => .double
  | .str _ => .str
  | .other _ => .other

def Arg.signed : Arg → Option Int
  | .int8 value => some value.toInt
  | .int16 value => some value.toInt
  | .int32 value => some value.toInt
  | .int64 value => some value.toInt
  | _ => none

/-- The constructors with one parameter. -/
inductive Constructor where
  | bool
  /-- `template<std::convertible_to<Int64> T> AttributeValue(Int64 value)` -/
  | signed
  /-- `template<std::convertible_to<UInt64> T> AttributeValue(T value)` -/
  | unsigned
  | double
  /-- `template<std::convertible_to<Str> T> AttributeValue(T value)` -/
  | string
  /-- `template<violet::Stringify T> AttributeValue(T value)` -/
  | stringify
  deriving DecidableEq

def Constructor.all : List Constructor := [.bool, .signed, .unsigned, .double, .string, .stringify]

def Constructor.isTemplate : Constructor → Bool
  | .bool | .double => false
  | .signed | .unsigned | .string | .stringify => true

def ArgType.isArithmetic : ArgType → Bool
  | .str | .other => false
  | _ => true

/-- The rank of the conversion to a viable constructor's parameter: 0 for an exact match, 2 for
a conversion. -/
def rank (stringify : ArgType → Bool) (arg : ArgType) : Constructor → Option Nat
  | .bool => if arg = .bool then some 0 else if arg.isArithmetic then some 2 else none
  -- no parameter mentions `T`, so it cannot be deduced
  | .signed => none
  | .unsigned => if arg.isArithmetic then some 0 else none
  | .double => if arg = .double then some 0 else if arg.isArithmetic then some 2 else none
  | .string => if arg = .str then some 0 else none
  | .stringify => if stringify arg then some 0 else none

/-- Whether one viable constructor is better than another: by its conversion, and then as no
template. The constraints of the templates are unrelated and decide nothing. -/
def better (stringify : ArgType → Bool) (arg : ArgType) (a b : Constructor) : Bool :=
  match rank stringify arg a, rank stringify arg b with
  | some m, some n => m < n || m = n && !a.isTemplate && b.isTemplate
  | some _, none => true
  | none, _ => false

/-- The constructor that is better than all others; without one the call is ill-formed. -/
def resolve (stringify : ArgType → Bool) (arg : ArgType) : Option Constructor :=
  Constructor.all.find? fun c =>
    Constructor.all.all fun other => other = c || better stringify arg c other

/-- `violet::UInt64(value)`. -/
def Arg.toUInt64 : Arg → Option UInt64
  | .bool value => some (if value then 1 else 0)
  | .int8 value => some (.ofInt value.toInt)
  | .int16 value => some (.ofInt value.toInt)
  | .int32 value => some (.ofInt value.toInt)
  | .int64 value => some (.ofInt value.toInt)
  | .uint8 value => some value.toUInt64
  | .uint16 value => some value.toUInt64
  | .uint32 value => some value.toUInt64
  | .uint64 value => some value
  | .double _ | .str _ | .other _ => none

/-- What a constructor makes of an argument that it is selected for. -/
def construct : Constructor → Arg → Option AttributeValue
  | .bool, .bool value => some (.bool value)
  | .unsigned, arg => arg.toUInt64.map .uint64
  | .double, .double value => some (.double value)
  | .string, .str value => some (.string value)
  | .stringify, .other text => some (.string text)
  | _, _ => none

/-- The conversion of an argument of `With`, given which types are `violet::Stringify`. -/
def ofArg (stringify : ArgType → Bool) (arg : Arg) : Option AttributeValue := do
  construct (← resolve stringify arg.type) arg

/-- For signed types only the template for unsigned numbers is viable without a conversion. -/
theorem resolve_signed {stringify : ArgType → Bool} {t : ArgType}
    (signed : t = .int8 ∨ t = .int16 ∨ t = .int32 ∨ t = .int64) :
    resolve stringify t = if stringify t then none else some .unsigned := by
  obtain rfl | rfl | rfl | rfl := signed
  all_goals
    split <;> simp [resolve, Constructor.all, better, rank, ArgType.isArithmetic,
      Constructor.isTemplate, *]

example : [ArgType.bool, .uint64, .double, .str, .other].map (resolve fun t => t = .other) =
    [some .bool, some .unsigned, some .double, some .string, some .stringify] := by decide

theorem ofArg_unsigned {stringify : ArgType → Bool} {arg : Arg} {value : AttributeValue}
    (signed : arg.type = .int8 ∨ arg.type = .int16 ∨ arg.type = .int32 ∨ arg.type = .int64)
    (formed : ofArg stringify arg = some value) : arg.toUInt64.map .uint64 = some value := by
  rw [ofArg, resolve_signed signed] at formed
  split at formed
  · cases formed
  · exact formed

theorem ofArg_signed {stringify : ArgType → Bool} {arg : Arg} {v : Int} {value : AttributeValue}
    (signed : arg.signed = some v) (formed : ofArg stringify arg = some value) :
    value = .uint64 (.ofInt v) := by
  cases arg with
  | int8 n | int16 n | int32 n | int64 n =>
      cases signed
      exact (Option.some.inj (ofArg_unsigned (by simp [Arg.type]) formed)).symm
  | _ => cases signed

theorem signed_bounds {arg : Arg} {v : Int} (signed : arg.signed = some v) :
    -2 ^ 63 ≤ v ∧ v < 2 ^ 63 := by
  cases arg with
  | int8 n =>
      cases signed
      have low := Int8.le_toInt n
      have high := Int8.toInt_lt n
      omega
  | int16 n =>
      cases signed
      have low := Int16.le_toInt n
      have high := Int16.toInt_lt n
      omega
  | int32 n =>
      cases signed
      have low := Int32.le_toInt n
      have high := Int32.toInt_lt n
      omega
  | int64 n =>
      cases signed
      exact ⟨Int64.le_toInt n, Int64.toInt_lt n⟩
  | _ => cases signed

/-- The stored number is the one passed, unless that is negative. -/
theorem toNat_ofInt {v : Int} (low : -2 ^ 63 ≤ v) (high : v < 2 ^ 63) :
    ((UInt64.ofInt v).toNat : Int) = v ↔ 0 ≤ v := by
  rw [UInt64.ofInt, UInt64.toNat_ofNat']
  omega

end AttributeValue

open AttributeValue

/-- Every renderer shows the number `v` for a field of a record. -/
structure ShowsNumber (record : LogRecord) (key : Bytes) (v : Int) : Prop where
  keyed : ∀ (env : Env) (segment : Segment) (pattern : ParsedPattern),
    segment.spec pattern.pattern = .ok (some key) →
    Formatter.Pattern.formatAttribute env segment pattern record = .ok (decimalInt v)
  joined : ∃ value, ⟨key, value⟩ ∈ record.fields.entries ∧
    ∀ (self : Formatter.Pattern) (env : Env) (before after : Bytes),
      self.shownField env before after ⟨key, value⟩ =
        before ++ key ++ self.config.delimiter ++ decimalInt v ++ after
  json : ∀ env : Env,
    (((record.asJson env).get (str "attributes")).get key).shown = some (.number v)
  converted : ∃ value converted, record.fields.lookup key = some value ∧
    OpenTelemetry.convertLogrinAttributeValue value = .ok converted ∧
    converted.shown = .number v
  openTelemetry : ∀ log, OpenTelemetry.logRecordToOpenTelemetry record = .ok log →
    (key, some (.number v)) ∈ log.pairs

universe u w

/-- A value holds the number `v`, and each record and entry it is attached to as a new field
shows that, whatever is attached later. -/
def KeepsNumber (σ : Type u) (α : Type w) (value : AttributeValue) (v : Int) : Prop :=
  value.shown = some (.number v) ∧
  (∀ (record : LogRecord) (key : Bytes) (later : List (Bytes × AttributeValue)),
    key ∉ record.fields →
    ShowsNumber (later.foldl (fun record a => record.withField a.1 a.2)
      (record.withField key value)) key v) ∧
  ∀ (entry : LogEntry σ α) (key : Bytes) (later : List (Bytes × AttributeValue)),
    key ∉ entry.record.fields →
    ShowsNumber (later.foldl (fun entry a => entry.withAttribute a.1 a.2)
      (entry.withAttribute key value)).record key v

section Renderers
variable {record : LogRecord} {key : Bytes} {num : UInt64} {value : AttributeValue}

theorem decimalInt_ofNat (n : Nat) : decimalInt n = decimal n := by
  rw [decimalInt, if_neg (by omega), Int.natAbs_natCast]

theorem get_field (env : Env) (held : record.fields.lookup key = some value)
    (some_ : value ≠ .mono) :
    ((record.asJson env).get (str "attributes")).get key = value.toJson := by
  rw [get_attributes, Nlohmann.Json.get, Nlohmann.Json.entries_ofEntries,
    LogRecord.lookup_fieldEntries record.fields.nodupKeys (AList.mem_lookup_iff.mp held)
      (by simp [toJson_isNull, some_])]
  rfl

theorem showsNumber_uint64 (held : record.fields.lookup key = some (.uint64 num))
    (narrow : num.toNat < 2 ^ 63) : ShowsNumber record key num.toNat where
  keyed := by
    intro env segment pattern spec
    simp only [Formatter.Pattern.formatAttribute, spec, ok_bind, held,
      Formatter.appendAttributeValue, decimalInt_ofNat]
  joined := by
    refine ⟨.uint64 num, AList.mem_lookup_iff.mp held, ?_⟩
    intro self env before after
    rw [Formatter.Pattern.shownField, Formatter.appendAttributeValue, decimalInt_ofNat]
  json := by
    intro env
    rw [get_field env held (by simp)]
    rfl
  converted := by
    refine ⟨.uint64 num, .int64 num.toInt64, held, ?_, ?_⟩
    · rw [OpenTelemetry.convertLogrinAttributeValue, if_pos (OpenTelemetry.narrow_iff.mpr narrow)]
    · rw [OpenTelemetry.Value.shown, OpenTelemetry.toInt64_toInt narrow]
  openTelemetry := by
    intro log h
    rw [OpenTelemetry.pairs_eq h]
    exact mem_shownFields.mpr ⟨.uint64 num, held, by simp, rfl⟩

/-- The first value attached for a key stays. -/
theorem lookup_later (fresh : key ∉ record.fields) (later : List (Bytes × AttributeValue)) :
    (later.foldl (fun record a => record.withField a.1 a.2)
      (record.withField key value)).fields.lookup key = some value := by
  obtain ⟨fields, same, lookup⟩ := foldl_withField later (record.withField key value)
  rw [same, lookup, LogRecord.withField, Fields.lookup_emplace,
    AList.lookup_eq_none.mpr fresh, if_pos rfl]
  rfl

end Renderers

section Signed
variable {σ : Type u} {α : Type w} {stringify : ArgType → Bool} {arg : Arg} {v : Int}
  {value : AttributeValue}

/-- A signed number passed to `With` is kept exactly when it is not negative. -/
theorem signed_kept_iff (signed : arg.signed = some v)
    (formed : ofArg stringify arg = some value) : KeepsNumber σ α value v ↔ 0 ≤ v := by
  obtain ⟨low, high⟩ := signed_bounds signed
  obtain rfl := ofArg_signed signed formed
  constructor
  · intro keeps
    have number : ((UInt64.ofInt v).toNat : Int) = v := by
      have held := keeps.1
      simpa [AttributeValue.shown] using held
    exact (toNat_ofInt low high).mp number
  · intro nonneg
    have number := (toNat_ofInt low high).mpr nonneg
    have narrow : (UInt64.ofInt v).toNat < 2 ^ 63 := by omega
    have shows : ∀ record : LogRecord, ∀ key,
        record.fields.lookup key = some (.uint64 (.ofInt v)) → ShowsNumber record key v := by
      intro record key held
      have shown := showsNumber_uint64 held narrow
      rwa [number] at shown
    refine ⟨by rw [AttributeValue.shown, number], ?_, ?_⟩
    · intro record key later fresh
      exact shows _ _ (lookup_later fresh later)
    · intro entry key later fresh
      rw [foldl_withAttribute]
      exact shows _ _ (lookup_later fresh later)

theorem signed_kept_sample : KeepsNumber Nat Nat (.uint64 69) 69 := by
  have formed : ofArg (fun t => t = .other) (.int32 69) = some (.uint64 69) := by decide
  exact (signed_kept_iff (by decide : (Arg.int32 69).signed = some 69) formed).mpr (by decide)

theorem signed_not_always_kept : ¬ ∀ (arg : Arg) (v : Int) (value : AttributeValue),
    arg.signed = some v → ofArg (fun t => t = .other) arg = some value →
    KeepsNumber Nat Nat value v := by
  intro always
  have kept := always (.int64 (-1)) (-1) (.uint64 18446744073709551615) (by decide) (by decide)
  have held := kept.1
  simp [AttributeValue.shown] at held

end Signed
end Logrin
