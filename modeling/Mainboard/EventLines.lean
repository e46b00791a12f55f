import Mathlib.Algebra.Group.Nat.Defs
import Mathlib.Data.List.DropRight
import Mainboard.ListReading
import Mainboard.OrderedMap
import Mainboard.TextSources

/-! One event on one spool line: its attributes as typed wire values, its id among them under a reserved key, its
instant as nanoseconds in digits. The line's JSON is written and read by the model library; what this file follows is the
way of each value into a wire value, and back out of whatever the library read. -/

namespace Mainboard.Events

open Analysis (Text)
open OrderedMap

/-- A double, its finite values of any type. -/
inductive Double (ν : Type)
  | finite (value : ν)
  | infinite (negative : Bool)
  | nan
  deriving DecidableEq, Repr

inductive Scalar (ν : Type)
  | str (text : Text)
  | bool (value : Bool)
  | int (value : ℤ)
  | double (value : Double ν)
  deriving DecidableEq, Repr

/-- What an attribute holds: a scalar or an array of them. -/
inductive Attribute (ν : Type)
  | scalar (value : Scalar ν)
  | array (items : List (Scalar ν))
  deriving DecidableEq, Repr

/-- An `AnyValue`, each of its fields set or left out. -/
inductive Value (ν : Type)
  | mk (string : Option Text) (bool : Option Bool) (int : Option ℤ) (double : Option (Double ν))
      (array : Option (List (Value ν)))

structure KeyValue (ν : Type) where
  key : Text
  value : Value ν

structure Record (ν : Type) where
  timeUnixNano : Text
  severityNumber : ℤ
  eventName : Text
  body : Value ν
  attributes : List (KeyValue ν)

structure ScopeLogs (ν : Type) where
  name : Text
  version : Text
  logRecords : List (Record ν)

structure ResourceLogs (ν : Type) where
  attributes : List (KeyValue ν)
  scopeLogs : List (ScopeLogs ν)

structure Request (ν : Type) where
  resourceLogs : List (ResourceLogs ν)

/-! Ids and numbers as text -/

def hexDigit (digit : Fin 16) : Char := "0123456789abcdef".toList.getD digit.val '0'

def hexValue (char : Char) : Option (Fin 16) := (List.finRange 16).find? fun digit => hexDigit digit = char.toLower

/-- An id's 32 hexadecimal digits. -/
structure Uuid where
  digits : List (Fin 16)
  sized : digits.length = 32
  deriving DecidableEq

namespace Uuid

/-- `str(id)`. -/
def text (id : Uuid) : Text :=
  let hex := id.digits.map hexDigit
  hex.take 8 ++ '-' :: (hex.drop 8).take 4 ++ '-' :: (hex.drop 12).take 4 ++ '-' :: (hex.drop 16).take 4 ++
    '-' :: hex.drop 20

/-- `text.replace(mark, "")`, with so many characters of an occurrence still to pass over. -/
def removing (mark : Text) : ℕ → Text → Text
  | _, [] => []
  | skip + 1, _ :: rest => removing mark skip rest
  | 0, char :: rest =>
      if mark.isPrefixOf (char :: rest) then removing mark (mark.length - 1) rest else char :: removing mark 0 rest

/-- `UUID(text)`, nothing where it raises. -/
def parsed (text : Text) : Option Uuid :=
  let bare := removing "uuid:".toList 0 (removing "urn:".toList 0 text)
  let stripped := (bare.dropWhile fun char => char = '{' || char = '}').rdropWhile fun char => char = '{' || char = '}'
  match (stripped.filter fun char => char ≠ '-').mapM hexValue with
  | none => none
  | some digits => if h : digits.length = 32 then some ⟨digits, h⟩ else none

end Uuid

/-- `str(value)` of an integer. -/
def decimal (value : ℤ) : Text :=
  if value < 0 then '-' :: Nat.toDigits 10 value.natAbs else Nat.toDigits 10 value.natAbs

/-- The number some digits write. -/
def natural (digits : Text) : Option ℕ :=
  if digits ≠ [] ∧ digits.all Char.isDigit then some (Nat.ofDigitChars 10 digits 0) else none

/-- `int(text)` of a sign and digits. -/
def number : Text → Option ℤ
  | '-' :: digits => (natural digits).map fun value => -Int.ofNat value
  | digits => (natural digits).map Int.ofNat

/-- An integer within the digits that texts and integers are converted between. -/
def Short (value : ℤ) : Prop := value.natAbs < 10 ^ 4300

instance (value : ℤ) : Decidable (Short value) := inferInstanceAs (Decidable (_ < _))

/-! Wire values -/

variable {ν : Type}

namespace Value

/-- The value with nothing set. -/
def unset : Value ν := ⟨none, none, none, none, none⟩

def ofScalar : Scalar ν → Value ν
  | .str text => ⟨some text, none, none, none, none⟩
  | .bool value => ⟨none, some value, none, none, none⟩
  | .int value => ⟨none, none, some value, none, none⟩
  | .double value => ⟨none, none, none, some value, none⟩

/-- `Value.of`. -/
def ofAttribute : Attribute ν → Value ν
  | .scalar value => ofScalar value
  | .array items => ⟨none, none, none, none, some (items.map ofScalar)⟩

/-- `_scalar`, nothing where it raises. -/
def scalar : Value ν → Option (Scalar ν)
  | ⟨string, bool, int, double, _⟩ =>
      (string.map .str).or ((bool.map .bool).or ((int.map .int).or (double.map .double)))

/-- `read`, nothing where it raises. -/
def read : Value ν → Option (Attribute ν)
  | ⟨_, _, _, _, some items⟩ => (items.mapM scalar).map .array
  | value => value.scalar.map .scalar

end Value

/-- A double that JSON has a number for. -/
def Double.jsonable : Double ν → Option (Double ν)
  | .finite value => some (.finite value)
  | _ => none

mutual

/-- A value as JSON keeps it: a double that is not finite is written as null, and read back as unset. -/
def Value.kept : Value ν → Value ν
  | ⟨string, bool, int, double, none⟩ => ⟨string, bool, int, double.bind Double.jsonable, none⟩
  | ⟨string, bool, int, double, some items⟩ => ⟨string, bool, int, double.bind Double.jsonable, some (keptAll items)⟩

def keptAll : List (Value ν) → List (Value ν)
  | [] => []
  | value :: values => value.kept :: keptAll values

end

mutual

/-- Every integer of a value is short enough to be written as digits and read back. -/
def Value.short : Value ν → Prop
  | ⟨_, _, int, _, none⟩ => ∀ value, int = some value → Short value
  | ⟨_, _, int, _, some items⟩ => (∀ value, int = some value → Short value) ∧ shortAll items

def shortAll : List (Value ν) → Prop
  | [] => True
  | value :: values => value.short ∧ shortAll values

end

namespace Request

/-- The request that carries a record alone. -/
def ofRecord (record : Record ν) : Request ν :=
  ⟨[{ attributes := [⟨"service.name".toList, .ofScalar (.str "mb".toList)⟩],
      scopeLogs := [⟨"mb.spool".toList, "1".toList, [record]⟩] }]⟩

/-- The one record, nothing where a request is of another shape or schema. -/
def record : Request ν → Option (Record ν)
  | ⟨[⟨_, [⟨name, version, [record]⟩]⟩]⟩ =>
      if name = "mb.spool".toList ∧ version = "1".toList then some record else none
  | _ => none

end Request

def KeyValue.kept (pair : KeyValue ν) : KeyValue ν := ⟨pair.key, pair.value.kept⟩

def Record.kept (record : Record ν) : Record ν :=
  { record with body := record.body.kept, attributes := record.attributes.map KeyValue.kept }

/-- The model library: a request as one JSON line, a line as a request, and what `str` makes of a value. -/
structure Codec (ν : Type) where
  dumps : Request ν → Option Text
  loads : Text → Option (Request ν)
  spelled : Attribute ν → Text

/-- What the library does with the request of one record: a line that reads back as the record JSON keeps, unless an
integer of it is longer than Python converts. A text is spelled as itself. -/
structure Codec.Faithful (codec : Codec ν) (record : Record ν) : Prop where
  reads : Short record.severityNumber ∧ record.body.short ∧ (∀ pair ∈ record.attributes, pair.value.short) →
    (codec.dumps (.ofRecord record)).bind codec.loads = some (.ofRecord record.kept)
  refuses : ¬ (Short record.severityNumber ∧ record.body.short ∧ ∀ pair ∈ record.attributes, pair.value.short) →
    (codec.dumps (.ofRecord record)).bind codec.loads = none
  spells : ∀ text, codec.spelled (.scalar (.str text)) = text

/-! Events -/

/-- `EVENT_ID`. -/
def eventId : Text := "log.record.uid".toList

/-- One operational fact: what happened, when (in microseconds of the epoch), and the values around it. -/
structure Event (ν : Type) where
  name : Text
  instant : ℤ
  body : Text
  severity : ℤ
  attributes : List (Text × Attribute ν)
  id : Uuid
  distinct : (attributes.map (·.1)).Nodup

namespace Event

/-- The record of an event. -/
def record (event : Event ν) : Record ν where
  timeUnixNano := decimal (event.instant * 1000)
  severityNumber := event.severity
  eventName := event.name
  body := .ofScalar (.str event.body)
  attributes := (put event.attributes eventId (.scalar (.str event.id.text))).map fun pair =>
    ⟨pair.1, .ofAttribute pair.2⟩

/-- The spool line, without its newline; nothing where writing raises. -/
def line (codec : Codec ν) (event : Event ν) : Option Text := codec.dumps (.ofRecord event.record)

/-- The calendar's first and last instants, in microseconds of the epoch. -/
def calendar : ℤ × ℤ := (-62135596800000000, 253402300799999999)

/-- One attribute off the wire. -/
def pairOf (pair : KeyValue ν) : Option (Text × Attribute ν) := pair.value.read.map fun value => (pair.key, value)

/-- The event of a record, nothing where it raises. -/
def ofRecord (codec : Codec ν) (record : Record ν) : Option (Event ν) :=
  match record.attributes.mapM pairOf, number record.timeUnixNano, record.body.read with
  | some pairs, some nanos, some body =>
      let attributes := ofPairs pairs
      let minted := (get attributes eventId).getD (.scalar (.str []))
      let instant := nanos / 1000
      match Uuid.parsed (codec.spelled minted) with
      | some id =>
          if calendar.1 ≤ instant ∧ instant ≤ calendar.2 then
            some {
              name := record.eventName, instant, body := codec.spelled body, severity := record.severityNumber, id
              attributes := attributes.filter fun pair => pair.1 ≠ eventId
              distinct := (nodup_keys_ofPairs pairs).sublist (List.filter_sublist.map _) }
          else none
      | none => none
  | _, _, _ => none

/-- `Event.parse`, nothing where it raises. -/
def parse (codec : Codec ν) (line : Text) : Option (Event ν) :=
  ((codec.loads line).bind Request.record).bind (ofRecord codec)

end Event

/-! Numbers and ids through text -/

theorem natural_toDigits (value : ℕ) : natural (Nat.toDigits 10 value) = some value := by
  unfold natural
  rw [if_pos ⟨Nat.toDigits_ne_nil, List.all_eq_true.mpr fun _ hchar =>
    Nat.isDigit_of_mem_toDigits (by decide) (by decide) hchar⟩, Nat.ofDigitChars_ten_toDigits]

theorem number_decimal (value : ℤ) : number (decimal value) = some value := by
  unfold decimal
  split
  · rename_i hneg
    rw [number, natural_toDigits, Option.map_some]
    exact congrArg some (by simp only [Int.ofNat_eq_natCast]; omega)
  · rename_i hpos
    unfold number
    split
    · rename_i digits hsame
      have hminus := Nat.isDigit_of_mem_toDigits (by decide) (by decide) (hsame ▸ List.mem_cons_self)
      exact absurd hminus (by decide)
    · rw [natural_toDigits, Option.map_some]
      exact congrArg some (Int.natAbs_of_nonneg (by omega))

theorem hexValue_hexDigit (digit : Fin 16) : hexValue (hexDigit digit) = some digit := by
  revert digit
  decide +kernel

namespace Uuid

/-- A mark whose first character a text does not have is nowhere in it. -/
theorem removing_of_not_mem {first : Char} {mark text : Text} (h : first ∉ text) :
    removing (first :: mark) 0 text = text := by
  induction text with
  | nil => rfl
  | cons char rest ih =>
      rw [List.mem_cons, not_or] at h
      have hnot : (first :: mark).isPrefixOf (char :: rest) = false := by
        rw [List.isPrefixOf, beq_eq_false_iff_ne.mpr h.1, Bool.false_and]
      rw [removing, if_neg (by rw [hnot]; exact Bool.false_ne_true), ih h.2]

theorem mem_text {id : Uuid} {char : Char} (h : char ∈ id.text) : char = '-' ∨ ∃ digit, char = hexDigit digit := by
  have hhex : ∀ {part : Text}, part <:+: id.digits.map hexDigit → char ∈ part → ∃ digit, char = hexDigit digit := by
    intro part hpart hchar
    obtain ⟨digit, -, rfl⟩ := List.mem_map.mp (hpart.subset hchar)
    exact ⟨digit, rfl⟩
  unfold text at h
  simp only [List.mem_append, List.mem_cons] at h
  rcases h with (((h | rfl | h) | rfl | h) | rfl | h) | rfl | h
  · exact Or.inr (hhex (List.take_prefix _ _).isInfix h)
  · exact Or.inl rfl
  · exact Or.inr (hhex ((List.take_prefix _ _).isInfix.trans (List.drop_suffix _ _).isInfix) h)
  · exact Or.inl rfl
  · exact Or.inr (hhex ((List.take_prefix _ _).isInfix.trans (List.drop_suffix _ _).isInfix) h)
  · exact Or.inl rfl
  · exact Or.inr (hhex ((List.take_prefix _ _).isInfix.trans (List.drop_suffix _ _).isInfix) h)
  · exact Or.inl rfl
  · exact Or.inr (hhex (List.drop_suffix _ _).isInfix h)

theorem not_mem_text {id : Uuid} {char : Char} (hdash : char ≠ '-')
    (hhex : ((List.finRange 16).all fun digit => hexDigit digit != char) = true) : char ∉ id.text := by
  intro h
  rcases mem_text h with hsame | ⟨digit, hsame⟩
  · exact hdash hsame
  · have hnot := List.all_eq_true.mp hhex digit (List.mem_finRange digit)
    rw [← hsame, bne_self_eq_false] at hnot
    exact Bool.noConfusion hnot

/-- The digits are what is left of an id's text without its hyphens. -/
theorem filter_text (id : Uuid) : (id.text.filter fun char => char ≠ '-') = id.digits.map hexDigit := by
  have hhex : ∀ part : Text, part <:+: id.digits.map hexDigit → part.filter (fun char => char ≠ '-') = part := by
    intro part hpart
    rw [List.filter_eq_self]
    intro char hchar
    obtain ⟨digit, -, rfl⟩ := List.mem_map.mp (hpart.subset hchar)
    have hall : ∀ digit, decide (hexDigit digit ≠ '-') = true := by decide +kernel
    exact hall digit
  have htake : ∀ start, ((id.digits.map hexDigit).drop start).take 4 <:+: id.digits.map hexDigit := fun start =>
    (List.take_prefix _ _).isInfix.trans (List.drop_suffix _ _).isInfix
  unfold text
  dsimp only
  simp only [List.filter_append, List.filter_cons, ne_eq, not_true_eq_false, decide_false, Bool.false_eq_true, if_false]
  rw [hhex _ (List.take_prefix _ _).isInfix, hhex _ (htake 8), hhex _ (htake 12), hhex _ (htake 16),
    hhex _ (List.drop_suffix _ _).isInfix]
  generalize id.digits.map hexDigit = hex
  have hjoin : ∀ start, (hex.drop start).take 4 ++ hex.drop (start + 4) = hex.drop start := fun start => by
    rw [← List.drop_drop, List.take_append_drop]
  rw [List.append_assoc, hjoin 16, List.append_assoc, hjoin 12, List.append_assoc, hjoin 8, List.take_append_drop]

theorem parsed_text (id : Uuid) : parsed id.text = some id := by
  have hmark : ∀ mark, removing ('u' :: mark) 0 id.text = id.text := fun mark =>
    removing_of_not_mem (not_mem_text (by decide) (by decide +kernel))
  have hbrace : ∀ char ∈ id.text, (decide (char = '{') || decide (char = '}')) = false := by
    intro char hchar
    rw [Bool.or_eq_false_iff, decide_eq_false_iff_not, decide_eq_false_iff_not]
    refine ⟨?_, ?_⟩
    · rintro rfl
      exact not_mem_text (by decide) (by decide +kernel) hchar
    · rintro rfl
      exact not_mem_text (by decide) (by decide +kernel) hchar
  have hlead : (id.text.dropWhile fun char => decide (char = '{') || decide (char = '}')) = id.text := by
    cases htext : id.text with
    | nil => rfl
    | cons char rest =>
        rw [List.dropWhile_cons, if_neg (by rw [hbrace char (htext ▸ List.mem_cons_self)]; exact Bool.false_ne_true)]
  have htail : (id.text.rdropWhile fun char => decide (char = '{') || decide (char = '}')) = id.text := by
    rw [List.rdropWhile_eq_self_iff]
    intro hne hbraced
    rw [hbrace _ (List.getLast_mem hne)] at hbraced
    exact Bool.false_ne_true hbraced
  have hurn : "urn:".toList = 'u' :: "rn:".toList := by decide +kernel
  have huuid : "uuid:".toList = 'u' :: "uid:".toList := by decide +kernel
  have hdigits : (id.digits.map hexDigit).mapM hexValue = some id.digits := by
    rw [List.mapM_map]
    exact (ListReading.mapM_map_some fun digit _ => hexValue_hexDigit digit).trans (by rw [List.map_id'])
  unfold parsed
  dsimp only
  rw [hurn, hmark, huuid, hmark, hlead, htail, filter_text, hdigits]
  dsimp only
  rw [dif_pos id.sized]

end Uuid

/-! Values through the wire -/

def Scalar.isFinite : Scalar ν → Bool
  | .double (.finite _) => true
  | .double _ => false
  | _ => true

def Attribute.scalars : Attribute ν → List (Scalar ν)
  | .scalar value => [value]
  | .array items => items

def Attribute.isFinite (held : Attribute ν) : Bool := held.scalars.all Scalar.isFinite

def Scalar.Short : Scalar ν → Prop
  | .int value => Events.Short value
  | _ => True

def Attribute.Short (held : Attribute ν) : Prop := ∀ value ∈ held.scalars, value.Short

namespace Value

theorem keptAll_eq (values : List (Value ν)) : keptAll values = values.map kept := by
  induction values with
  | nil => rw [keptAll]; rfl
  | cons value values ih => rw [keptAll, ih, List.map_cons]

theorem shortAll_iff (values : List (Value ν)) : shortAll values ↔ ∀ value ∈ values, value.short := by
  induction values with
  | nil => rw [shortAll]; simp
  | cons value values ih => rw [shortAll, ih, List.forall_mem_cons]

/-- A scalar comes back out of JSON exactly where it is no double without a number. -/
theorem scalar_kept (value : Scalar ν) :
    (ofScalar value).kept.scalar = if value.isFinite then some value else none := by
  cases value with
  | double value => cases value <;> rfl
  | _ => rfl

theorem read_kept_scalar (value : Scalar ν) :
    (ofScalar value).kept.read = (ofScalar value).kept.scalar.map .scalar := by
  cases value <;> rfl

theorem short_ofScalar (value : Scalar ν) : (ofScalar value).short ↔ value.Short := by
  cases value with
  | int value => simp [ofScalar, short, Scalar.Short]
  | _ => simp [ofScalar, short, Scalar.Short]

theorem mapM_scalar_kept (items : List (Scalar ν)) :
    (items.map fun item => (ofScalar item).kept).mapM scalar = if items.all Scalar.isFinite then some items else none := by
  rw [List.mapM_map]
  split
  · rename_i hall
    refine (ListReading.mapM_map_some fun item hitem => ?_).trans (by rw [List.map_id])
    rw [Function.comp_apply, scalar_kept, if_pos (List.all_eq_true.mp hall item hitem), id]
  · rename_i hnot
    rw [Option.eq_none_iff_forall_ne_some]
    intro answers hanswers
    refine hnot (List.all_eq_true.mpr fun item hitem => ?_)
    obtain ⟨answer, -, hanswer⟩ := ListReading.exists_of_mapM hanswers hitem
    rw [Function.comp_apply, scalar_kept] at hanswer
    by_contra hinfinite
    rw [if_neg hinfinite] at hanswer
    cases hanswer

/-- An attribute comes back out of JSON exactly where none of its doubles is without a number. -/
theorem read_kept (held : Attribute ν) :
    (ofAttribute held).kept.read = if held.isFinite then some held else none := by
  cases held with
  | scalar value =>
      have hone : (Attribute.scalar value).isFinite = value.isFinite := Bool.and_true _
      rw [ofAttribute, read_kept_scalar, scalar_kept, hone]
      split <;> rfl
  | array items =>
      have hkept : (ofAttribute (.array items)).kept =
          ⟨none, none, none, none, some (items.map fun item => (ofScalar item).kept)⟩ := by
        rw [ofAttribute, kept, keptAll_eq, List.map_map]
        rfl
      rw [hkept, read, mapM_scalar_kept]
      unfold Attribute.isFinite Attribute.scalars
      dsimp only
      split <;> rfl

theorem short_ofAttribute (held : Attribute ν) : (ofAttribute held).short ↔ held.Short := by
  cases held with
  | scalar value =>
      rw [ofAttribute, short_ofScalar]
      simp [Attribute.Short, Attribute.scalars]
  | array items =>
      rw [ofAttribute, short, shortAll_iff]
      simp only [List.forall_mem_map, short_ofScalar]
      simp [Attribute.Short, Attribute.scalars]

end Value

/-! An event through its line -/

namespace Event

/-- What an event's line can carry: doubles that JSON has numbers for, integers short enough to be written as digits,
and an instant the calendar has in UTC. -/
structure Plain (event : Event ν) : Prop where
  finite : ∀ pair ∈ event.attributes, pair.2.isFinite = true
  short : ∀ pair ∈ event.attributes, pair.2.Short
  severity : Short event.severity
  instant : calendar.1 ≤ event.instant ∧ event.instant ≤ calendar.2

variable {event : Event ν} {codec : Codec ν}

/-- An event's attributes with its id last. -/
def stamped (event : Event ν) : List (Text × Attribute ν) :=
  event.attributes ++ [(eventId, .scalar (.str event.id.text))]

theorem record_attributes (hreserved : eventId ∉ event.attributes.map (·.1)) :
    event.record.attributes = event.stamped.map fun pair => ⟨pair.1, .ofAttribute pair.2⟩ := by
  unfold record stamped
  rw [put_of_not_mem hreserved]

theorem record_short_iff (hreserved : eventId ∉ event.attributes.map (·.1)) :
    (Short event.record.severityNumber ∧ event.record.body.short ∧ ∀ pair ∈ event.record.attributes, pair.value.short) ↔
      Short event.severity ∧ ∀ pair ∈ event.attributes, pair.2.Short := by
  have hbody : event.record.body.short := (Value.short_ofScalar (.str event.body)).mpr trivial
  have hid : (Attribute.scalar (.str event.id.text) : Attribute ν).Short := fun value hvalue => by
    rw [List.mem_singleton.mp hvalue]
    trivial
  have hpairs : (∀ pair ∈ event.record.attributes, pair.value.short) ↔ ∀ pair ∈ event.attributes, pair.2.Short := by
    rw [record_attributes hreserved]
    simp only [List.forall_mem_map, Value.short_ofAttribute, stamped, List.forall_mem_append, List.forall_mem_singleton]
    exact and_iff_left hid
  rw [hpairs]
  exact and_congr_right fun _ => and_iff_right hbody

theorem nodup_stamped (hreserved : eventId ∉ event.attributes.map (·.1)) : (event.stamped.map (·.1)).Nodup := by
  unfold stamped
  rw [List.map_append]
  exact event.distinct.append (List.nodup_singleton _) (List.disjoint_singleton.mpr hreserved)

/-- The attributes read back are the ones written, where each of them has a number for its doubles. -/
theorem mapM_pairOf (pairs : List (Text × Attribute ν)) :
    ((pairs.map fun pair => (⟨pair.1, .ofAttribute pair.2⟩ : KeyValue ν)).map KeyValue.kept).mapM pairOf =
      if ∀ pair ∈ pairs, pair.2.isFinite = true then some pairs else none := by
  have hpair : ∀ pair : Text × Attribute ν, pairOf (KeyValue.kept ⟨pair.1, .ofAttribute pair.2⟩) =
      if pair.2.isFinite then some pair else none := fun pair => by
    unfold pairOf KeyValue.kept
    dsimp only
    rw [Value.read_kept]
    split <;> rfl
  rw [List.map_map, List.mapM_map]
  split
  · rename_i hall
    refine (ListReading.mapM_map_some fun pair hmem => ?_).trans (by rw [List.map_id])
    exact (hpair pair).trans (if_pos (hall pair hmem))
  · rename_i hnot
    rw [Option.eq_none_iff_forall_ne_some]
    intro answers hanswers
    refine hnot fun pair hmem => ?_
    obtain ⟨answer, -, hanswer⟩ := ListReading.exists_of_mapM hanswers hmem
    by_contra hinfinite
    have hnone := (hpair pair).trans (if_neg hinfinite)
    rw [Function.comp_apply, Function.comp_apply, hnone] at hanswer
    cases hanswer

/-- What the record JSON keeps of an event is the event again, exactly where its doubles have numbers and its instant is
in the calendar. -/
theorem ofRecord_kept (hreserved : eventId ∉ event.attributes.map (·.1))
    (hspells : ∀ text, codec.spelled (.scalar (.str text)) = text) :
    ofRecord codec event.record.kept =
      if (∀ pair ∈ event.attributes, pair.2.isFinite = true) ∧ calendar.1 ≤ event.instant ∧ event.instant ≤ calendar.2
      then some event else none := by
  have hfinite : (∀ pair ∈ event.stamped, pair.2.isFinite = true) ↔ ∀ pair ∈ event.attributes, pair.2.isFinite = true := by
    unfold stamped
    rw [List.forall_mem_append, List.forall_mem_singleton]
    exact and_iff_left rfl
  have hpairs : event.record.kept.attributes.mapM pairOf =
      if ∀ pair ∈ event.attributes, pair.2.isFinite = true then some event.stamped else none := by
    unfold Record.kept
    rw [record_attributes hreserved, mapM_pairOf]
    exact if_congr hfinite rfl rfl
  have htime : number event.record.kept.timeUnixNano = some (event.instant * 1000) := number_decimal _
  have hbody : event.record.kept.body.read = some (.scalar (.str event.body)) := rfl
  have hmap : ofPairs event.stamped = event.stamped := by
    have hall := @putAll_of_nodup _ _ _ [] event.stamped (nodup_stamped hreserved)
    exact hall
  have hid : get event.stamped eventId = some (.scalar (.str event.id.text)) :=
    get_of_mem (nodup_stamped hreserved) (List.mem_append_right _ (List.mem_singleton.mpr rfl))
  have hown : (event.stamped.filter fun pair => pair.1 ≠ eventId) = event.attributes := by
    unfold stamped
    rw [List.filter_append, List.filter_eq_self.mpr fun pair hpair => decide_eq_true fun hsame : pair.1 = eventId =>
      hreserved (hsame ▸ List.mem_map_of_mem hpair)]
    simp
  have hnanos : event.instant * 1000 / 1000 = event.instant := Int.mul_ediv_cancel _ (by decide)
  unfold ofRecord
  rw [hpairs, htime, hbody]
  by_cases hall : ∀ pair ∈ event.attributes, pair.2.isFinite = true
  · rw [if_pos hall]
    simp only [hmap, hid, Option.getD_some, hspells, Uuid.parsed_text, hnanos, hown]
    by_cases hcalendar : calendar.1 ≤ event.instant ∧ event.instant ≤ calendar.2
    · rw [if_pos hcalendar, if_pos ⟨hall, hcalendar⟩]
      rfl
    · rw [if_neg hcalendar, if_neg fun hboth => hcalendar hboth.2]
  · rw [if_neg hall, if_neg fun hboth => hall hboth.1]

theorem record_ofRecord (record : Record ν) : (Request.ofRecord record).record = some record := by
  unfold Request.ofRecord Request.record
  exact if_pos ⟨rfl, rfl⟩

/-- An event comes back off its line exactly where the line can carry it. -/
theorem parse_line_iff (hreserved : eventId ∉ event.attributes.map (·.1)) (hcodec : codec.Faithful event.record) :
    (event.line codec).bind (parse codec) = some event ↔ event.Plain := by
  have hline : (event.line codec).bind (parse codec) =
      (((codec.dumps (.ofRecord event.record)).bind codec.loads).bind Request.record).bind (ofRecord codec) := by
    unfold line
    cases codec.dumps (.ofRecord event.record) <;> rfl
  rw [hline]
  by_cases hshort : Short event.record.severityNumber ∧ event.record.body.short ∧
      ∀ pair ∈ event.record.attributes, pair.value.short
  · rw [hcodec.reads hshort, Option.bind_some, record_ofRecord, Option.bind_some, ofRecord_kept hreserved hcodec.spells]
    rw [record_short_iff hreserved] at hshort
    split
    · rename_i hplain
      exact iff_of_true rfl ⟨hplain.1, hshort.2, hshort.1, hplain.2⟩
    · rename_i hnot
      exact iff_of_false (fun h => by cases h) fun hplain => hnot ⟨hplain.finite, hplain.instant⟩
  · rw [hcodec.refuses hshort]
    rw [record_short_iff hreserved] at hshort
    exact iff_of_false (fun h => by cases h) fun hplain => hshort ⟨hplain.severity, hplain.short⟩

/-- The round trip of an event whose attributes do not use the reserved key. -/
theorem event_round_trip_iff (hreserved : eventId ∉ event.attributes.map (·.1)) (hcodec : codec.Faithful event.record) :
    (event.line codec).bind (parse codec) = some event ↔ event.Plain :=
  parse_line_iff hreserved hcodec

/-- An event of one attribute. -/
def single (held : Attribute ν) : Event ν where
  name := "mb.job.settled".toList
  instant := 1000000
  body := "ok".toList
  severity := 9
  attributes := [("n".toList, held)]
  id := ⟨List.replicate 32 0, rfl⟩
  distinct := List.nodup_singleton _

/-- The line of such an event, its attribute's value as JSON has it. -/
def singleLine (value : String) : Text :=
  ("\x7b\"resourceLogs\":[\x7b\"resource\":\x7b\"attributes\":[\x7b\"key\":\"service.name\",\"value\":" ++
    "\x7b\"stringValue\":\"mb\"\x7d\x7d]\x7d,\"scopeLogs\":[\x7b\"scope\":\x7b\"name\":\"mb.spool\",\"version\":\"1\"\x7d," ++
    "\"logRecords\":[\x7b\"timeUnixNano\":\"1000000000\",\"severityNumber\":9,\"eventName\":\"mb.job.settled\"," ++
    "\"body\":\x7b\"stringValue\":\"ok\"\x7d,\"attributes\":[\x7b\"key\":\"n\",\"value\":" ++ value ++
    "\x7d,\x7b\"key\":\"log.record.uid\",\"value\":\x7b\"stringValue\":\"00000000-0000-0000-0000-000000000000\"\x7d\x7d]\x7d]\x7d]\x7d]\x7d").toList

/-- The library on one event: its line, read back as what JSON keeps. -/
def libraryOf (value : String) (event : Event ν) : Codec ν where
  dumps _ := some (singleLine value)
  loads text := if text = singleLine value then some (.ofRecord event.record.kept) else none
  spelled
    | .scalar (.str text) => text
    | _ => []

theorem libraryOf_faithful (value : String) (hreserved : eventId ∉ event.attributes.map (·.1))
    (hshort : Short event.severity ∧ ∀ pair ∈ event.attributes, pair.2.Short) :
    (libraryOf value event).Faithful event.record where
  reads _ := by
    unfold libraryOf
    generalize singleLine value = line
    rw [Option.bind_some]
    dsimp only
    rw [if_pos rfl]
  refuses h := absurd ((record_short_iff hreserved).mpr hshort) h
  spells _ := rfl

theorem single_short {held : Attribute ν} (h : held.Short) :
    Short (single held).severity ∧ ∀ pair ∈ (single held).attributes, pair.2.Short :=
  ⟨(by decide +kernel : Short 9), fun pair hpair => by rw [List.mem_singleton.mp hpair]; exact h⟩

theorem single_reserved (held : Attribute ν) : eventId ∉ (single held).attributes.map (·.1) := by
  have hkey : eventId ≠ "n".toList := by decide +kernel
  exact fun hmem => hkey (List.mem_singleton.mp hmem)

/-- An event that counts, and one that measured something infinite. -/
def counted : Event ℕ := single (.scalar (.int 5))

def measured : Event ℕ := single (.scalar (.double (.infinite false)))

theorem counted_short : (.scalar (.int 5) : Attribute ℕ).Short := fun value hvalue => by
  rw [List.mem_singleton.mp hvalue]
  exact (by decide +kernel : Short 5)

theorem measured_short : (.scalar (.double (.infinite false)) : Attribute ℕ).Short := fun value hvalue => by
  rw [List.mem_singleton.mp hvalue]
  trivial

theorem event_round_trip_iff_counted :
    (counted.line (libraryOf "\x7b\"intValue\":\"5\"\x7d" counted)).bind (parse (libraryOf "\x7b\"intValue\":\"5\"\x7d" counted)) =
      some counted := by
  refine (event_round_trip_iff (single_reserved _)
    (libraryOf_faithful "\x7b\"intValue\":\"5\"\x7d" (single_reserved _) (single_short counted_short))).mpr ?_
  exact ⟨fun pair hpair => by rw [List.mem_singleton.mp hpair]; rfl, (single_short counted_short).2,
    (single_short counted_short).1, (by decide +kernel : calendar.1 ≤ 1000000 ∧ 1000000 ≤ calendar.2)⟩

/-- An infinite measure is written as null, and no event comes back off the line. -/
theorem event_round_trip_fails :
    eventId ∉ measured.attributes.map (·.1) ∧ (libraryOf "\x7b\"doubleValue\":null\x7d" measured).Faithful measured.record ∧
      (measured.line (libraryOf "\x7b\"doubleValue\":null\x7d" measured)).bind
        (parse (libraryOf "\x7b\"doubleValue\":null\x7d" measured)) ≠ some measured := by
  have hfaithful : (libraryOf "\x7b\"doubleValue\":null\x7d" measured).Faithful measured.record :=
    libraryOf_faithful _ (single_reserved _) (single_short measured_short)
  refine ⟨single_reserved _, hfaithful, fun hsame => ?_⟩
  have hplain := (parse_line_iff (single_reserved _) hfaithful).mp hsame
  have hfinite := hplain.finite _ (List.mem_singleton.mpr rfl)
  exact Bool.noConfusion hfinite

end Event

end Mainboard.Events
