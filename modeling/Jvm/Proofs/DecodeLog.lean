import Jvm.Proofs.Launching
import Jvm.Proofs.UnreadWindows
import Mathlib.Data.List.Basic
/-!
# The log of a decoding

The attributes that are passed over are reported **each once, in the order in which their records stand in the file**,
those in method bodies at any depth among them.  The report of the class comes last, and it comes exactly if the class
was decoded: `ClassFile.decode_log_in_file_order`.

Which attributes are reported is known from their places (`ClassFile.mem_events_iff`).  That a decoder reports them in
order is a property of runs that survives composition (`Ordered`): what a part of a decoder reports begins in what that
part took, so that the reports of the parts follow each other as the parts do.  A failed part may have taken more than
it left the cursor behind, and it is the last one.
-/
namespace Jvm

/-- An attribute that was passed over: the offset at which its record begins, its name and its declared length. -/
structure SkippedRecord where
  start : Nat
  name : String
  length : UInt32
  deriving DecidableEq

namespace SkippedRecord

/-- The report of the attribute.  In front of its window stand the index of its name and its length. -/
def event (r : SkippedRecord) : DecodeEvent := .skippedAttribute r.name r.length (r.start + 6)

theorem event_injective : Function.Injective event := by
  rintro ⟨start, name, length⟩ ⟨start', name', length'⟩ h
  obtain ⟨rfl, rfl, hstart⟩ := DecodeEvent.skippedAttribute.inj h
  obtain rfl : start = start' := Nat.add_right_cancel hstart
  rfl

end SkippedRecord

/-- Records one behind the other, none of them before `lo` and all of them before `hi`. -/
structure Ascending (lo hi : Nat) (records : List SkippedRecord) : Prop where
  le : lo ≤ hi
  bounds : ∀ r ∈ records, lo ≤ r.start ∧ r.start < hi
  increasing : records.Pairwise (·.start < ·.start)

namespace Ascending

variable {lo mid hi : Nat} {records before : List SkippedRecord}

theorem nil (h : lo ≤ hi) : Ascending lo hi [] := ⟨h, fun _ hr => absurd hr List.not_mem_nil, .nil⟩

theorem append (h : Ascending lo mid before) (h' : Ascending mid hi records) : Ascending lo hi (before ++ records) := by
  have hle := h.le
  have hle' := h'.le
  refine ⟨Nat.le_trans hle hle', fun r hr => ?_,
    List.pairwise_append.2 ⟨h.increasing, h'.increasing, fun r hr r' hr' => ?_⟩⟩
  · rcases List.mem_append.1 hr with hr | hr
    · have hbounds := h.bounds r hr
      omega
    · have hbounds := h'.bounds r hr
      omega
  · have hbounds := h.bounds r hr
    have hbounds' := h'.bounds r' hr'
    omega

theorem mono {lo' hi' : Nat} (h : Ascending lo hi records) (hlo : lo' ≤ lo) (hhi : hi ≤ hi') :
    Ascending lo' hi' records := by
  have hle := h.le
  refine ⟨by omega, fun r hr => ?_, h.increasing⟩
  have hbounds := h.bounds r hr
  omega

end Ascending

namespace Decoded

variable {α β : Type}

/-- A run from `c` has reported the attributes that it passed over and nothing else, in the order of their records,
which begin in what the run answers for and not before `lo`. -/
def ReportsFrom (lo : Nat) (c : Cursor) (r : Decoded α) : Prop :=
  ∃ records, r.events.toList = records.map SkippedRecord.event ∧ Ascending lo (r.reach c) records

theorem reportsFrom_of_silent {c : Cursor} {r : Decoded α} {lo : Nat} (h : r.events = #[]) (hlo : lo ≤ r.reach c) :
    r.ReportsFrom lo c := ⟨[], by rw [h]; rfl, .nil hlo⟩

/-- Reports of a run that goes on from `mid` follow those from before. -/
theorem ReportsFrom.andThen {c mid : Cursor} {lo m : Nat} {a : α} {events : Array DecodeEvent}
    {before : List SkippedRecord} {next : α → Cursor → Decoded β} (hstop : mid.stop = c.stop)
    (hevents : events.toList = before.map SkippedRecord.event) (hbefore : Ascending lo m before)
    (hnext : (next a mid).ReportsFrom m mid) :
    ((Decoded.mk (.ok a) mid events).andThen next).ReportsFrom lo c := by
  obtain ⟨records, hreported, hrecords⟩ := hnext
  refine ⟨before ++ records, ?_, ?_⟩
  · rw [List.map_append, ← hevents, ← hreported]
    exact Array.toList_append
  · rw [reach_andThen hstop]
    exact hbefore.append hrecords

end Decoded

open Decoded

namespace Decoder

variable {α β : Type} {d : Decoder α} {f : α → Decoder β}

/-- The decoder reports the attributes that it passes over in the order of their records, and nothing else. -/
structure Ordered (d : Decoder α) : Prop where
  composed : Composed d
  reports : ∀ c, (d.runAt c).ReportsFrom c.offset c

theorem Plain.ordered (h : Plain d) : Ordered d :=
  ⟨h.composed, fun c => reportsFrom_of_silent (h.events c) (h.composed.offset_le_reach c)⟩

namespace Ordered

theorem bind (hd : Ordered d) (hf : ∀ a, Ordered (f a)) : Ordered (d >>= f) := by
  refine ⟨.bind hd.composed fun a => (hf a).composed, fun c => ?_⟩
  have hstop := hd.composed.stop_eq c
  obtain ⟨before, hevents, hbefore⟩ := hd.reports c
  rw [runAt_bind fun a => (hf a).composed.appends]
  rcases hrun : d.runAt c with ⟨e | a, mid, events⟩
  · rw [hrun] at hevents hbefore
    exact ⟨before, hevents, hbefore⟩
  · rw [hrun] at hstop hevents hbefore
    exact ReportsFrom.andThen hstop hevents hbefore ((hf a).reports mid)

theorem map (hd : Ordered d) (g : α → β) : Ordered (d >>= fun a => pure (g a)) :=
  hd.bind fun a => (Plain.pure (g a)).ordered

theorem times (hd : Ordered d) : ∀ n, Ordered (Decoder.times d n)
  | 0 => (Plain.pure []).ordered
  | n + 1 => by
    rw [times_succ]
    exact hd.bind fun _ => (times hd n).map _

theorem counted (hd : Ordered d) : Ordered (Decoder.counted d) := Plain.u2.ordered.bind fun n => hd.times n.toNat

end Ordered

end Decoder

open Decoder

namespace Attribute

/-! ## Attributes -/

variable {pool : ConstantPool}

/-- The window begins six bytes behind the record. -/
theorem reports_skip (name : String) (length : UInt32) {c : Cursor} {start : Nat} (hc : c.offset = start + 6) :
    ((skip name length).runAt c).ReportsFrom start c := by
  rcases Nat.lt_or_ge c.remaining length.toNat with hn | hn
  · rw [skip, runAt_window_of_lt hn]
    refine reportsFrom_of_silent rfl ?_
    show start ≤ c.stop
    unfold Cursor.stop
    omega
  · rw [runAt_skip_of_le name hn]
    refine ⟨[⟨start, name, length⟩], by rw [hc]; rfl, ?_⟩
    have hreach : start < c.offset + length.toNat := by omega
    refine ⟨Nat.le_of_lt hreach, fun r hr => ?_, List.pairwise_singleton _ _⟩
    obtain rfl := List.mem_singleton.1 hr
    exact ⟨Nat.le_refl start, hreach⟩

/-- What a method body reports begins in its window. -/
theorem ordered_codeIn {nested : Decoder (List Attribute)} (h : Ordered (Code.decoder nested))
    (hnested : Composed nested) (length : UInt32) : Ordered (codeIn length nested) := by
  refine ⟨composed_codeIn hnested length, fun c => ?_⟩
  rcases Nat.lt_or_ge c.remaining length.toNat with hn | hn
  · refine reportsFrom_of_silent ?_ ((composed_codeIn hnested length).offset_le_reach c)
    rw [codeIn, runAt_window_of_lt hn]
  · obtain ⟨records, hevents, hrecords⟩ := h.reports ⟨c.offset, c.bytes.take length.toNat⟩
    refine ⟨records, ?_, hrecords.mono (Nat.le_refl _) (reach_body_le hnested hn)⟩
    rw [runAt_codeIn (window_of_le hn)]
    exact hevents

theorem offset_of_head {c : Cursor} {h : String × UInt32} {t : DecodeState} (hd : head pool ⟨c, #[]⟩ = .ok h t) :
    t.cursor.offset = c.offset + 6 := by
  obtain ⟨taken, ht, index, -, rfl⟩ := (reads_head pool).spans hd
  simpa using ht.2

/-- **An attribute is reported where its record begins, and before those in its body.** -/
theorem ordered_record {nested : Nat → Decoder (List Attribute)} (h : ∀ length, Ordered (nested length))
    (pool : ConstantPool) :
    Ordered (record pool nested) := by
  have hcomposed (length : Nat) : Composed (nested length) := (h length).composed
  have hbody (length : Nat) : Ordered (Code.decoder (nested length)) := by
    rw [Code.decoder_eq]
    exact Code.plain_front.ordered.bind fun body => (h length).map fun _ => body
  refine ⟨composed_record hcomposed pool, fun c => ?_⟩
  have hstop := (plain_head pool).composed.stop_eq c
  have hsilent := (plain_head pool).events c
  rw [record_eq, runAt_bind fun head => ?appends]
  case appends =>
    split
    · exact (composed_codeIn (hcomposed _) head.2).appends
    · exact (composed_skip head.1 head.2).appends
  cases hd : head pool ⟨c, #[]⟩ with
  | error e t =>
    rw [runAt_of_error hd] at hsilent ⊢
    exact reportsFrom_of_silent hsilent (Nat.le_add_right _ _)
  | ok head t =>
    have hoffset := offset_of_head hd
    rw [runAt_of_ok hd] at hstop hsilent ⊢
    -- nothing is reported so far, and what comes may begin where the record does
    have hnone : t.events.toList = [].map SkippedRecord.event := congrArg Array.toList hsilent
    refine ReportsFrom.andThen hstop hnone (.nil (Nat.le_refl c.offset)) ?_
    by_cases hcode : head.1 = codeName
    · simp only [if_pos hcode]
      obtain ⟨records, hevents, hrecords⟩ := (ordered_codeIn (hbody head.2.toNat) (hcomposed _) head.2).reports t.cursor
      exact ⟨records, hevents, hrecords.mono (by omega) (Nat.le_refl _)⟩
    · simp only [if_neg hcode]
      exact reports_skip head.1 head.2 hoffset

theorem ordered_listUpTo (pool : ConstantPool) : ∀ levels, Ordered (listUpTo pool levels)
  | 0 => (Plain.pure []).ordered
  | levels + 1 => (ordered_record (fun _ => ordered_listUpTo pool levels) pool).counted

theorem ordered_listDecoder (pool : ConstantPool) : Ordered (listDecoder pool) :=
  (ordered_record (fun length => ordered_listUpTo pool (levels length)) pool).counted

end Attribute

theorem Member.ordered_decoder (pool : ConstantPool) : Ordered (Member.decoder pool) :=
  Plain.u2.ordered.bind fun _ => Plain.u2.ordered.bind fun _ => Plain.u2.ordered.bind fun _ =>
    (Attribute.ordered_listDecoder pool).map _

/-- The record is that of an attribute of the file, at its place, which is not `Code` and whose window was cut out. -/
def SkippedRecord.In (bytes : Bytes) (r : SkippedRecord) : Prop :=
  ∃ pool c window, AttributePlace bytes pool c ∧ OpaqueWindowAt pool c r.name r.length window ∧ c.offset = r.start

namespace ClassFile

/-! ## The whole class -/

/-- The report of a class: its versions, the declared count of its constants, and how many fields and methods it has. -/
def event (c : ClassFile) : DecodeEvent :=
  .decodedClass c.majorVersion c.minorVersion c.pool.count c.fields.length c.methods.length

/-- Reads a class without reporting it. -/
def unreported : Decoder ClassFile := do
  let c ← head
  let fields ← Decoder.counted (Member.decoder c.pool)
  let methods ← Decoder.counted (Member.decoder c.pool)
  let attributes ← Attribute.listDecoder c.pool
  return { c with fields := fields, methods := methods, attributes := attributes }

theorem ordered_unreported : Ordered unreported :=
  plain_head.ordered.bind fun c => (Member.ordered_decoder c.pool).counted.bind fun _ =>
    (Member.ordered_decoder c.pool).counted.bind fun _ => (Attribute.ordered_listDecoder c.pool).map _

theorem decoder_eq_unreported : decoder = unreported >>= fun c => report c.event >>= fun _ => pure c := by
  simp only [decoder_eq, unreported, event, bind_assoc, pure_bind]
  rfl

theorem runAt_decoder (c : Cursor) :
    decoder.runAt c = (unreported.runAt c).andThen fun f mid => ⟨.ok f, mid, #[f.event]⟩ := by
  have happends (f : ClassFile) : Appends (report f.event >>= fun _ => pure f) :=
    (Composed.bind (.report f.event) fun _ => .pure f).appends
  rw [decoder_eq_unreported, runAt_bind happends]
  rfl

/-- **The class is reported last, and only if it was decoded.** -/
theorem events_decoder (c : Cursor) : ∃ records : List SkippedRecord, records.Pairwise (·.start < ·.start) ∧
    (∀ f, (decoder.runAt c).result = .ok f →
      (decoder.runAt c).events.toList = records.map SkippedRecord.event ++ [f.event]) ∧
    (∀ e, (decoder.runAt c).result = .error e → (decoder.runAt c).events.toList = records.map SkippedRecord.event) := by
  obtain ⟨records, hevents, hrecords⟩ := ordered_unreported.reports c
  rw [runAt_decoder]
  rcases hrun : unreported.runAt c with ⟨e | f, mid, events⟩
  · rw [hrun] at hevents
    exact ⟨records, hrecords.increasing, fun f hf => (nomatch hf), fun _ _ => hevents⟩
  · rw [hrun] at hevents
    refine ⟨records, hrecords.increasing, fun f' hf => ?_, fun e he => (nomatch he)⟩
    obtain rfl : f = f' := Except.ok.inj hf
    rw [← hevents]
    exact Array.toList_append

theorem event_ne_skipped (f : ClassFile) (r : SkippedRecord) : r.event ≠ f.event := nofun

/-- Six bytes stand between the record and its window. -/
theorem skippedRecord_in_iff {bytes : Bytes} {r : SkippedRecord} :
    r.In bytes ↔ r.event ∈ (decoder.runAt (.ofBytes bytes)).events := by
  have hmem : r.event ∈ (decoder.runAt (.ofBytes bytes)).events ↔
      ∃ window, SkippedWindow bytes r.name r.length window ∧ window.offset = r.start + 6 := by
    rw [← mem_events_iff, parseWithEvents_eq]
    rfl
  have hsix {pool : ConstantPool} {c window : Cursor} (h : OpaqueWindowAt pool c r.name r.length window) :
      window.offset = c.offset + 6 := by
    obtain ⟨index, start, behind, -, -, hstart, -, hoffset, -⟩ := h
    rw [hoffset, hstart.2]
    simp
  rw [hmem]
  constructor
  · rintro ⟨pool, c, window, hplace, hopaque, hstart⟩
    exact ⟨window, ⟨pool, c, hplace, hopaque⟩, by rw [hsix hopaque, hstart]⟩
  · rintro ⟨window, ⟨pool, c, hplace, hopaque⟩, hstart⟩
    exact ⟨pool, c, window, hplace, hopaque, Nat.add_right_cancel ((hsix hopaque).symm.trans hstart)⟩

/-- Only what is left behind a class is refused as such. -/
theorem decoder_ne_trailing {bytes : Bytes} {offset remaining : Nat} :
    (decoder.runAt (.ofBytes bytes)).result ≠ .error (.trailingBytes offset remaining) := by
  intro h
  obtain ⟨t, hd⟩ := runAt_result_eq_error.1 h
  obtain ⟨-, hlength, f, hspelled⟩ : Diagnosis bytes (.trailingBytes offset remaining) := decoder_diagnosis rfl hd
  have htook : (Cursor.ofBytes bytes).Took (bytes.take offset) ⟨offset, bytes.drop offset⟩ := by
    refine ⟨(List.take_append_drop offset bytes).symm, ?_⟩
    rw [List.length_take_of_le (by omega)]
    exact (Nat.zero_add offset).symm
  obtain ⟨events, hok⟩ := (reads_decoder ⟨.ofBytes bytes, #[]⟩ f _).2 ⟨_, htook, hspelled⟩
  rw [hd] at hok
  cases hok

/-- **The log of a decoding is in file order.**  It has each attribute of the file that is passed over once, where its
record begins, and behind these the class, if it was decoded.  A parse that fails has reported the class exactly if all
that was wrong were bytes behind it. -/
theorem decode_log_in_file_order (bytes : Bytes) : ∃ records : List SkippedRecord,
    records.Pairwise (·.start < ·.start) ∧ (∀ r, r ∈ records ↔ r.In bytes) ∧
    (∀ c, (decoder.runAt (.ofBytes bytes)).result = .ok c →
      (decoder.runAt (.ofBytes bytes)).events.toList = records.map SkippedRecord.event ++
        [.decodedClass c.majorVersion c.minorVersion c.pool.count c.fields.length c.methods.length]) ∧
    (∀ e, parse bytes = .error e →
      (∃ offset remaining c, e = .trailingBytes offset remaining ∧ (decoder.runAt (.ofBytes bytes)).result = .ok c ∧
        (parseWithEvents bytes).2.toList = records.map SkippedRecord.event ++
          [.decodedClass c.majorVersion c.minorVersion c.pool.count c.fields.length c.methods.length]) ∨
      (∀ offset remaining, e ≠ .trailingBytes offset remaining) ∧
        (parseWithEvents bytes).2.toList = records.map SkippedRecord.event) := by
  obtain ⟨records, hincreasing, hok, herror⟩ := events_decoder (.ofBytes bytes)
  have hlog : (parseWithEvents bytes).2 = (decoder.runAt (.ofBytes bytes)).events := by rw [parseWithEvents_eq]
  refine ⟨records, hincreasing, fun r => ?_, hok, fun e he => ?_⟩
  · rw [skippedRecord_in_iff, ← Array.mem_toList_iff, ← List.mem_map_of_injective SkippedRecord.event_injective]
    cases hresult : (decoder.runAt (.ofBytes bytes)).result with
    | ok f => simp [hok f hresult, event_ne_skipped]
    | error e => rw [herror e hresult]
  · rw [hlog]
    rcases parse_eq_error.1 he with ⟨t, hd⟩ | ⟨f, t, hd, -, rfl⟩
    · have hresult := runAt_result_eq_error.2 ⟨t, hd⟩
      refine .inr ⟨?_, herror e hresult⟩
      rintro offset remaining rfl
      exact decoder_ne_trailing hresult
    · have hresult := runAt_result_eq_ok.2 ⟨t, hd⟩
      exact .inl ⟨_, _, f, rfl, hresult, hok f hresult⟩

/-- An attribute of a method and one in its body, behind them the class, and a byte too many behind that.  A class that
is refused at its end has reported the attributes up to there, and not itself. -/
theorem richFile_log :
    (parse (richFile ++ [7]) = .error (.trailingBytes 136 1) ∧
      (parseWithEvents (richFile ++ [7])).2 =
        #[.skippedAttribute "x" 2 96, .skippedAttribute "x" 1 133, .decodedClass 45 3 7 0 2] ∧
      ∀ r : SkippedRecord, r.In (richFile ++ [7]) ↔ r ∈ [⟨90, "x", 2⟩, ⟨127, "x", 1⟩]) ∧
    parse (refusedClass [1, 2, 3]) = .error (.invalidConstantIndex 9) ∧
      (parseWithEvents (refusedClass [1, 2, 3])).2 = #[.skippedAttribute "X" 3 65, .skippedAttribute "X" 0 76] ∧
      ∀ r : SkippedRecord, r.In (refusedClass [1, 2, 3]) ↔ r ∈ [⟨59, "X", 3⟩, ⟨70, "X", 0⟩] := by
  have hinjective := List.map_injective_iff.2 SkippedRecord.event_injective
  constructor
  · obtain ⟨records, -, hin, hdecoded, -⟩ := decode_log_in_file_order (richFile ++ [7])
    have hok : (decoder.runAt (.ofBytes (richFile ++ [7]))).result = .ok richClass := by decide +kernel
    have hlog : (decoder.runAt (.ofBytes (richFile ++ [7]))).events.toList =
        [⟨90, "x", 2⟩, ⟨127, "x", 1⟩].map SkippedRecord.event ++ [.decodedClass 45 3 7 0 2] := by decide +kernel
    obtain rfl := hinjective (List.append_cancel_right ((hdecoded _ hok).symm.trans hlog))
    exact ⟨by decide +kernel, by decide +kernel, fun r => (hin r).symm⟩
  · obtain ⟨records, -, hin, -, hfails⟩ := decode_log_in_file_order (refusedClass [1, 2, 3])
    have hparse : parse (refusedClass [1, 2, 3]) = .error (.invalidConstantIndex 9) := by decide +kernel
    have hlog : (parseWithEvents (refusedClass [1, 2, 3])).2.toList =
        [⟨59, "X", 3⟩, ⟨70, "X", 0⟩].map SkippedRecord.event := by
      decide +kernel
    rcases hfails _ hparse with ⟨_, _, _, htrailing, -⟩ | ⟨-, hskipped⟩
    · cases htrailing
    · obtain rfl := hinjective (hskipped.symm.trans hlog)
      exact ⟨hparse, by decide +kernel, fun r => (hin r).symm⟩

end ClassFile

end Jvm
