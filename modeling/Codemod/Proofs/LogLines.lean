import Codemod.Log.Record
import Codemod.Proofs.Journal
import Codemod.Proofs.KeyedLists
import Codemod.Proofs.Timestamps
import Codemod.Proofs.WrittenValues

/-!
# Lines that report records

A record has a line of JSON whenever its own parts have texts; the extras do not matter for that. The line holds every
extra under its own name and, beside them, the fields of the record. Message and exception are always those of the
record, since no extra can have their names. The other fields can be hidden: an extra with such a name takes the place
of the field.

Main statements:

* `Record.exists_parts_iff` says which records have a line;
* `Record.members_eq` says that a line holds the extras laid over the fields;
* `Record.IsPlain.fields_eq` and `Record.IsPlain.exists_line` say what this means for a record with nothing but extras;
* `Record.lines_report_records` says what is read from a line.
-/

namespace Codemod.Log.Record

open Json (Value Members)

variable {r : Record} {name : String} {v : Value}

/-! ### Parts -/

/-- The parts of a record, as far as they have texts. -/
structure Parts (r : Record) where
  instant : Instant
  stamp : String
  message : String
  exception : Option String
  instant_eq : Instant.ofValue r.time = .ok instant
  stamp_eq : instant.text = .ok stamp
  message_eq : r.messageText = .ok message
  exception_eq : r.exceptionText? = .ok exception

/-- The fields of a line that report the record itself. -/
def Parts.fields (p : r.Parts) : Members :=
  [("timestamp", .text p.stamp), ("level", r.levelName), ("logger", r.loggerName), ("message", .text p.message)] ++
    (p.exception.map fun t => ("exc_info", Value.text t)).toList

/-- A record has all parts if it was made within the years 1 to 9999, its arguments fit its message, and what it has for
an exception is one. -/
theorem exists_parts_iff : Nonempty r.Parts ↔
    (∃ i, Instant.ofValue r.time = .ok i ∧ -62135596800 ≤ i.seconds ∧ i.seconds < 253402300800) ∧
    (∃ message, r.messageText = .ok message) ∧ ∃ exception, r.exceptionText? = .ok exception := by
  constructor
  · rintro ⟨p⟩
    exact ⟨⟨p.instant, p.instant_eq, Instant.exists_text_iff.mp ⟨_, p.stamp_eq⟩⟩, ⟨_, p.message_eq⟩, _, p.exception_eq⟩
  · rintro ⟨⟨i, hi, hyears⟩, ⟨message, hmessage⟩, exception, hexception⟩
    obtain ⟨stamp, hstamp⟩ := Instant.exists_text_iff.mpr hyears
    exact ⟨⟨i, stamp, message, exception, hi, hstamp, hmessage, hexception⟩⟩

/-- The extras are laid over the fields. -/
theorem members_eq (p : r.Parts) : r.members = .ok (p.fields.merge r.extras) := by
  have htime : (Instant.ofValue r.time >>= Instant.text) = .ok p.stamp := by
    rw [p.instant_eq]
    exact p.stamp_eq
  unfold members
  rw [htime, p.message_eq, p.exception_eq]
  unfold Parts.fields
  cases p.exception <;> rfl

theorem jsonLine_eq (p : r.Parts) : r.jsonLine = .ok (Json.print (.object (p.fields.merge r.extras))) := by
  rw [jsonLine, members_eq p]
  rfl

/-- A record with a line has all parts. -/
theorem nonempty_parts {line : String} (h : r.jsonLine = .ok line) : Nonempty r.Parts := by
  cases hmembers : r.members with
  | error f =>
    rw [jsonLine, hmembers] at h
    cases h
  | ok ms =>
    obtain ⟨stamp, htime, hrest⟩ := Except.bind_eq_ok hmembers
    obtain ⟨message, hmessage, hrest⟩ := Except.bind_eq_ok hrest
    obtain ⟨exception, hexception, -⟩ := Except.bind_eq_ok hrest
    cases hstamp : Instant.ofValue r.time >>= Instant.text with
    | error f =>
      rw [hstamp] at htime
      cases htime
    | ok stamp =>
      obtain ⟨i, hi, htext⟩ := Except.bind_eq_ok hstamp
      exact ⟨⟨i, stamp, message, exception, hi, htext, hmessage, hexception⟩⟩

/-! ### Plain records -/

/-- Whether only extras were set on a record. -/
def IsPlain (r : Record) : Prop :=
  ∀ name ∈ r.attributes.keys, name ∉ ownAttributes

theorem IsPlain.get?_own (h : r.IsPlain) (hname : name ∈ ownAttributes) : r.attributes.get? name = none :=
  Keyed.get?_eq_none_iff.mpr fun hmem => h name hmem hname

theorem IsPlain.attributeOr_own (h : r.IsPlain) (hname : name ∈ ownAttributes) : r.attributeOr name v = v := by
  rw [attributeOr, h.get?_own hname]
  rfl

theorem IsPlain.exceptionText?_eq (h : r.IsPlain) : r.exceptionText? = .ok (r.exception.map exceptionText) := by
  rw [exceptionText?, h.get?_own (by decide)]

theorem IsPlain.messageText_eq (h : r.IsPlain) (hargs : r.arguments = []) : r.messageText = .ok r.message.shown := by
  simp only [messageText, h.get?_own (show "args" ∈ ownAttributes by decide),
    h.attributeOr_own (show "msg" ∈ ownAttributes by decide), hargs, List.isEmpty_nil, if_true]

/-- The fields of a plain record are those it was made with. -/
theorem IsPlain.fields_eq (h : r.IsPlain) (p : r.Parts) : p.fields =
    [("timestamp", .text p.stamp), ("level", .text r.severity.name), ("logger", .text r.logger),
      ("message", .text p.message)] ++ (r.exception.map fun t => ("exc_info", .text (exceptionText t))).toList := by
  have hexception : r.exception.map exceptionText = p.exception :=
    Except.ok.inj (h.exceptionText?_eq.symm.trans p.exception_eq)
  have hlevel : r.levelName = .text r.severity.name := h.attributeOr_own (by decide)
  have hlogger : r.loggerName = .text r.logger := h.attributeOr_own (by decide)
  rw [Parts.fields, hlevel, hlogger, ← hexception, Option.map_map]
  rfl

/-- A plain record without arguments has a line if it was made within the years 1 to 9999. -/
theorem IsPlain.exists_line {i : Instant} (h : r.IsPlain) (hargs : r.arguments = [])
    (hi : Instant.ofValue r.created = .ok i) (hyears : -62135596800 ≤ i.seconds ∧ i.seconds < 253402300800) :
    ∃ line, r.jsonLine = .ok line := by
  have htime : r.time = r.created := h.attributeOr_own (by decide)
  obtain ⟨p⟩ := exists_parts_iff.mpr
    ⟨⟨i, htime ▸ hi, hyears⟩, ⟨_, h.messageText_eq hargs⟩, _, h.exceptionText?_eq⟩
  exact ⟨_, jsonLine_eq p⟩

/-! ### What is read from a line -/

/-- Whether all that a line holds of a record can be read again. -/
structure Serialisable (r : Record) : Prop where
  names : r.attributes.keys.Nodup
  level : r.levelName.Serialisable
  logger : r.loggerName.Serialisable
  extras : ∀ e ∈ r.extras, e.2.Serialisable

theorem IsPlain.serialisable (h : r.IsPlain) (hnames : r.attributes.keys.Nodup)
    (hvalues : ∀ e ∈ r.attributes, e.2.Serialisable) : r.Serialisable where
  names := hnames
  level := by
    rw [levelName, h.attributeOr_own (by decide)]
    exact trivial
  logger := by
    rw [loggerName, h.attributeOr_own (by decide)]
    exact trivial
  extras e he := hvalues e (List.mem_of_mem_filter he)

theorem Serialisable.nodup_extras (h : r.Serialisable) : r.extras.keys.Nodup :=
  h.names.sublist (List.filter_sublist.map _)

theorem not_mem_extras (hname : name ∈ ownAttributes) : name ∉ r.extras.keys := by
  intro hmem
  obtain ⟨e, he, rfl⟩ := List.mem_map.mp hmem
  have hextra := (List.mem_filter.mp he).2
  simp [hname] at hextra

theorem Parts.nodup_fields (p : r.Parts) : p.fields.keys.Nodup := by
  unfold fields
  cases p.exception <;> simp [Keyed.keys]

theorem Parts.serialisable_fields (p : r.Parts) (h : r.Serialisable) : ∀ e ∈ p.fields, e.2.Serialisable := by
  unfold fields
  cases p.exception <;> simp [h.level, h.logger, Value.Serialisable]

/-- What the members of a line hold. -/
theorem Parts.get?_merge (p : r.Parts) (h : r.Serialisable) (name : String) :
    (p.fields.merge r.extras).get? name = (r.extras.get? name).or (p.fields.get? name) :=
  Keyed.get?_merge h.nodup_extras name

theorem Parts.serialisable_object (p : r.Parts) (h : r.Serialisable) :
    (Value.object (p.fields.merge r.extras)).Serialisable := by
  have hnodup : (p.fields.merge r.extras).keys.Nodup := Keyed.nodup_keys_merge p.nodup_fields
  refine ⟨hnodup, Json.membersSerialisable_iff.mpr fun e he => ?_⟩
  have hget := (Keyed.get?_eq_some_iff hnodup).mpr he
  rw [p.get?_merge h, Option.or_eq_some_iff] at hget
  rcases hget with hextra | ⟨-, hfield⟩
  · exact h.extras e (Keyed.mem_of_get? hextra)
  · exact p.serialisable_fields h e (Keyed.mem_of_get? hfield)

/-- What the members of a line tell of a record. -/
structure Parts.Reports (p : r.Parts) (entry : Members) : Prop where
  /-- No name is repeated. -/
  distinct : entry.keys.Nodup
  /-- The names are those of the extras and the fields. -/
  names : ∀ name, name ∈ entry.keys ↔ name ∈ r.extras.keys ∨ name ∈ p.fields.keys
  /-- Every extra is there under its own name. -/
  extra : ∀ name v, (name, v) ∈ r.extras → entry.get? name = some v
  /-- A field is that of the record unless an extra with its name has another value. -/
  field : ∀ name v, (name, v) ∈ p.fields → (entry.get? name = some v ↔ ∀ w, (name, w) ∈ r.extras → w = v)
  /-- The message is always that of the record. -/
  message : entry.get? "message" = some (.text p.message)
  /-- There is an exception if and only if the record has one, and it is that of the record. -/
  exception : entry.get? "exc_info" = p.exception.map .text
  /-- No other instant has the timestamp. -/
  timestamp : ∀ i : Instant, i.text = .ok p.stamp → i = p.instant

theorem Parts.reports_merge (p : r.Parts) (h : r.Serialisable) : p.Reports (p.fields.merge r.extras) where
  distinct := Keyed.nodup_keys_merge p.nodup_fields
  names name := by
    rw [← Keyed.get?_isSome_iff, ← Keyed.get?_isSome_iff, ← Keyed.get?_isSome_iff, p.get?_merge h, Option.isSome_or,
      Bool.or_eq_true]
  extra name v hmem := by
    rw [p.get?_merge h, (Keyed.get?_eq_some_iff h.nodup_extras).mpr hmem]
    rfl
  field name v hmem := by
    rw [p.get?_merge h, (Keyed.get?_eq_some_iff p.nodup_fields).mpr hmem]
    simp only [← Keyed.get?_eq_some_iff h.nodup_extras]
    cases r.extras.get? name <;> simp
  message := by
    have hnone : r.extras.get? "message" = none := Keyed.get?_eq_none_iff.mpr (not_mem_extras (by decide))
    rw [p.get?_merge h, hnone]
    rfl
  exception := by
    have hnone : r.extras.get? "exc_info" = none := Keyed.get?_eq_none_iff.mpr (not_mem_extras (by decide))
    rw [p.get?_merge h, hnone]
    unfold fields
    cases p.exception <;> rfl
  timestamp i hi := Instant.eq_of_text hi p.stamp_eq

/-- A record has a line if and only if it was made within the years 1 to 9999, its arguments fit its message, and what
it has for an exception is one. The line consists of visible characters, so it holds no line break, and is read as an
object that holds the extras and, where no extra with the same name has another value, the fields of the record. -/
theorem lines_report_records (h : r.Serialisable) :
    ((∃ line, r.jsonLine = .ok line) ↔
      (∃ i, Instant.ofValue r.time = .ok i ∧ -62135596800 ≤ i.seconds ∧ i.seconds < 253402300800) ∧
      (∃ message, r.messageText = .ok message) ∧ ∃ exception, r.exceptionText? = .ok exception) ∧
    ∀ line, r.jsonLine = .ok line → ∃ (p : r.Parts) (entry : Members), Json.read line = .ok (.object entry) ∧
      (∀ c ∈ line.toList, Text.isVisible c = true) ∧ p.Reports entry := by
  constructor
  · rw [← exists_parts_iff]
    constructor
    · rintro ⟨line, hline⟩
      exact nonempty_parts hline
    · rintro ⟨p⟩
      exact ⟨_, jsonLine_eq p⟩
  · intro line hsome
    obtain ⟨p⟩ := nonempty_parts hsome
    have hobject := p.serialisable_object h
    rw [jsonLine_eq p] at hsome
    cases hsome
    exact ⟨p, _, Json.read_print hobject, Json.visible_of_mem_print hobject, p.reports_merge h⟩

/-- A warning with an exception and extras of several kinds. -/
def sampleWarning : Record where
  message := .text "%s -> %s"
  arguments := [.text "./a", .text "src/a"]
  severity := Severity.warning
  logger := "tsrewrite.pathing"
  created := .int 1700000000
  exception := some "boom"
  attributes :=
    [("file", .text "src/b.ts"), ("share", .real (.finite false 6755399441055744 (-52))),
      ("steps", .list [.int 2, .object [("done", .bool true)]])]

theorem isPlain_sampleWarning : sampleWarning.IsPlain := by
  unfold IsPlain
  decide +kernel

theorem serialisable_sampleWarning : sampleWarning.Serialisable := by
  refine isPlain_sampleWarning.serialisable (by decide +kernel) ?_
  have hshare : (Value.real (.finite false 6755399441055744 (-52))).Serialisable :=
    ⟨by decide, by decide, by decide, by decide⟩
  have hdone : (Value.object [("done", .bool true)]).Serialisable := ⟨by decide, trivial, trivial⟩
  have htwo : (Value.int 2).Serialisable := show (Decimal.digits 2).length ≤ Text.digitLimit by decide
  have hsteps : (Value.list [.int 2, .object [("done", .bool true)]]).Serialisable := ⟨htwo, hdone, trivial⟩
  simp only [sampleWarning, List.forall_mem_cons]
  exact ⟨trivial, hshare, hsteps, by simp⟩

/-- The line of the sample is read as its fields and extras. -/
theorem sampleWarning_reported : sampleWarning.Serialisable ∧ ∃ (line : String) (entry : Members),
    sampleWarning.jsonLine = .ok line ∧ Json.read line = .ok (.object entry) ∧
    entry.get? "level" = some (.text "WARNING") ∧ entry.get? "message" = some (.text "./a -> src/a") ∧
    entry.get? "exc_info" = some (.text "ValueError: boom") ∧
    entry.get? "steps" = some (.list [.int 2, .object [("done", .bool true)]]) := by
  have hmessage : sampleWarning.messageText = .ok "./a -> src/a" := by decide +kernel
  have hexception : sampleWarning.exceptionText? = .ok (some "ValueError: boom") := by decide +kernel
  obtain ⟨hlines, hread⟩ := lines_report_records serialisable_sampleWarning
  obtain ⟨line, hline⟩ := hlines.mpr ⟨⟨Instant.ofSeconds 1700000000, rfl, by decide⟩, ⟨_, hmessage⟩, _, hexception⟩
  obtain ⟨p, entry, hentry, -, hreports⟩ := hread line hline
  refine ⟨serialisable_sampleWarning, line, entry, hline, hentry, ?_, ?_, ?_, ?_⟩
  · have hlevel : ("level", .text "WARNING") ∈ p.fields := by
      rw [isPlain_sampleWarning.fields_eq p]
      exact .tail _ (.head _)
    have hfree : "level" ∉ sampleWarning.extras.keys := by decide +kernel
    exact (hreports.field "level" _ hlevel).mpr fun w hw => absurd (List.mem_map_of_mem hw) hfree
  · rw [hreports.message, Except.ok.inj (p.message_eq.symm.trans hmessage)]
  · rw [hreports.exception, Except.ok.inj (p.exception_eq.symm.trans hexception)]
    rfl
  · exact hreports.extra "steps" _ (List.mem_filter.mpr ⟨.tail _ (.tail _ (.head _)), by decide +kernel⟩)

/-- A record with an extra that has the name of a field. -/
def leveledRecord : Record where
  message := .text "m"
  logger := "x"
  attributes := [("level", .text "x")]

/-- An extra takes the place of the level: the line reports another severity than the record has. -/
theorem hidden_level_reported : leveledRecord.Serialisable ∧ leveledRecord.IsPlain ∧
    leveledRecord.severity.name = "INFO" ∧ ∃ (line : String) (entry : Members), leveledRecord.jsonLine = .ok line ∧
      Json.read line = .ok (.object entry) ∧ entry.get? "level" = some (.text "x") := by
  have hplain : leveledRecord.IsPlain := by
    unfold IsPlain
    decide +kernel
  have hserialisable : leveledRecord.Serialisable :=
    hplain.serialisable (by decide +kernel) (by simp [leveledRecord, Value.Serialisable])
  have p : leveledRecord.Parts :=
    ⟨Instant.ofSeconds 0, "1970-01-01T00:00:00+00:00", "m", none, rfl, by decide +kernel, by decide +kernel, rfl⟩
  have hextra : ("level", .text "x") ∈ leveledRecord.extras := List.mem_filter.mpr ⟨.head _, by decide +kernel⟩
  exact ⟨hserialisable, hplain, rfl, _, _, jsonLine_eq p, Json.read_print (p.serialisable_object hserialisable),
    (p.reports_merge hserialisable).extra "level" _ hextra⟩

end Codemod.Log.Record
