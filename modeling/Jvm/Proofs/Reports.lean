import Jvm.Proofs.NestingDepth
/-!
# Every window that is passed over is reported

A decoder adds to what was reported before it and does not look at it, so a run is composed of the runs of its parts
(`Decoder.runAt_bind`).  With the spellings of the parts this says which part of a file an event comes from.

The windows that are passed over are said here of the bytes alone, as the places of attributes are.  They are the ones
that decoding reports, in files that are refused as well: `ClassFile.mem_events_iff`.
-/
namespace Jvm

namespace Decoded

variable {α β : Type}

/-- The answer of a run in a state in which events were reported before. -/
def behind (r : Decoded α) (events : Array DecodeEvent) : Decoder.Answer α :=
  { r with events := events ++ r.events }.answer

/-- A run and, if it succeeds, another one from where it stopped. -/
def andThen (r : Decoded α) (next : α → Cursor → Decoded β) : Decoded β :=
  match r.result with
  | .ok a => ⟨(next a r.cursor).result, (next a r.cursor).cursor, r.events ++ (next a r.cursor).events⟩
  | .error e => ⟨.error e, r.cursor, r.events⟩

end Decoded

namespace Decoder

variable {α β : Type} {d : Decoder α} {f : α → Decoder β} {c : Cursor} {e : DecodeEvent}

/-! ## Runs are composed of runs -/

/-- The decoder adds to what was reported before, and does not look at it. -/
def Appends (d : Decoder α) : Prop := ∀ s, d s = (d.runAt s.cursor).behind s.events

theorem runAt_of_ok {a : α} {t : DecodeState} (h : d ⟨c, #[]⟩ = .ok a t) : d.runAt c = ⟨.ok a, t.cursor, t.events⟩ := by
  unfold runAt
  rw [h]

theorem runAt_of_error {err : DecodeError} {t : DecodeState} (h : d ⟨c, #[]⟩ = .error err t) :
    d.runAt c = ⟨.error err, t.cursor, t.events⟩ := by
  unfold runAt
  rw [h]

theorem runAt_of_behind {r : Decoded α} {events : Array DecodeEvent} (h : d ⟨c, #[]⟩ = r.behind events) :
    d.runAt c = ⟨r.result, r.cursor, events ++ r.events⟩ := by
  obtain ⟨result, cursor, reported⟩ := r
  cases result with
  | ok a => exact runAt_of_ok h
  | error err => exact runAt_of_error h

/-- **A composed run is a run and then another one**, with the events of the one in front of those of the other. -/
theorem runAt_bind (hf : ∀ a, Appends (f a)) (c : Cursor) :
    (d >>= f).runAt c = (d.runAt c).andThen fun a c' => (f a).runAt c' := by
  cases hd : d ⟨c, #[]⟩ with
  | ok a t =>
    rw [runAt_of_behind ((Decoder.bind_of_ok hd).trans (hf a t)), runAt_of_ok hd]
    rfl
  | error err t =>
    rw [runAt_of_error (Decoder.bind_of_error hd), runAt_of_error hd]
    rfl

theorem Appends.bind (hd : Appends d) (hf : ∀ a, Appends (f a)) : Appends (d >>= f) := by
  intro s
  have hs := hd s
  rw [runAt_bind hf]
  cases hr : d.runAt s.cursor with
  | mk result cursor events =>
    rw [hr] at hs
    cases result with
    | ok a =>
      rw [Decoder.bind_of_ok hs, hf a]
      simp only [Decoded.andThen, Decoded.behind, Array.append_assoc]
    | error err => exact Decoder.bind_of_error hs

theorem Composed.appends (h : Composed d) : Appends d := by
  induction h with
  | pure a => exact fun s => by simp [Decoded.behind, Decoded.answer, runAt_of_ok (pure_eq_ok.2 ⟨rfl, rfl⟩)]
  | throw err => exact fun s => by simp [Decoded.behind, Decoded.answer, runAt_of_error (throw_eq_error.2 ⟨rfl, rfl⟩)]
  | report event => exact fun s => by simp [Decoded.behind, Decoded.answer, runAt, Decoder.report]
  | offset => exact fun s => by simp [Decoded.behind, Decoded.answer, runAt, Decoder.offset]
  | bytes n =>
    intro s
    unfold runAt Decoded.behind Decoded.answer Decoder.bytes
    cases s.cursor.split? n with
    | some cut => simp
    | none => simp
  | bind _ _ ihd ihf => exact ihd.bind ihf
  | @inside _ w d _ ih =>
    intro s
    have hs := ih ⟨w, s.events⟩
    cases hd : d ⟨w, #[]⟩ with
    | ok a t =>
      rw [runAt_of_ok hd] at hs
      rw [runAt_of_ok (inside_eq_ok.2 ⟨t.events, hd, rfl⟩)]
      exact inside_eq_ok.2 ⟨_, hs, rfl⟩
    | error err t =>
      rw [runAt_of_error hd] at hs
      rw [runAt_of_error (inside_eq_error.2 ⟨t, hd, rfl⟩)]
      exact inside_eq_error.2 ⟨_, hs, rfl⟩

/-! ## Where an event comes from -/

theorem mem_events_bind (hf : ∀ a, Composed (f a)) : e ∈ ((d >>= f).runAt c).events ↔
    e ∈ (d.runAt c).events ∨ ∃ a t, d ⟨c, #[]⟩ = .ok a t ∧ e ∈ ((f a).runAt t.cursor).events := by
  rw [runAt_bind fun a => (hf a).appends]
  cases hd : d ⟨c, #[]⟩ with
  | ok a t => simp [runAt_of_ok hd, Decoded.andThen]
  | error err t => simp [runAt_of_error hd, Decoded.andThen]

theorem events_map (g : α → β) : ((d >>= fun a => pure (g a)).runAt c).events = (d.runAt c).events := by
  rw [runAt_bind fun a => (Composed.pure (g a)).appends]
  cases hd : d ⟨c, #[]⟩ with
  | ok a t =>
    have hpure : (pure (g a) : Decoder β).runAt t.cursor = ⟨.ok (g a), t.cursor, #[]⟩ := rfl
    simp [runAt_of_ok hd, Decoded.andThen, hpure]
  | error err t => simp [runAt_of_error hd, Decoded.andThen]

theorem mem_events_report {event : DecodeEvent} {a : α} :
    e ∈ ((report event >>= fun _ => pure a : Decoder α).runAt c).events ↔ e = event := by
  have hevents : ((report event >>= fun _ => pure a : Decoder α).runAt c).events = #[event] := rfl
  rw [hevents]
  simp

theorem Plain.events (h : Plain d) (c : Cursor) : (d.runAt c).events = #[] := by
  induction h generalizing c with
  | pure a => rfl
  | throw err => rfl
  | offset => rfl
  | bytes n =>
    unfold runAt Decoder.bytes
    cases c.split? n <;> rfl
  | @bind _ _ d f _ hrest ihd ihf =>
    rw [runAt_bind fun a => (hrest a).composed.appends]
    cases hd : d ⟨c, #[]⟩ with
    | ok a t =>
      have hfirst := ihd c
      rw [runAt_of_ok hd] at hfirst
      simp [runAt_of_ok hd, Decoded.andThen, ihf a t.cursor, show t.events = #[] from hfirst]
    | error err t =>
      have hfirst := ihd c
      rw [runAt_of_error hd] at hfirst
      simpa [runAt_of_error hd, Decoded.andThen] using hfirst

namespace Reads

variable {R : Spelling α}

/-- **An event comes from the first part of a decoder, or from the rest of it behind what the first part spells.** -/
theorem mem_events_bind (h : Reads d R) (hf : ∀ a, Composed (f a)) : e ∈ ((d >>= f).runAt c).events ↔
    e ∈ (d.runAt c).events ∨ ∃ a c', Spans R a c c' ∧ e ∈ ((f a).runAt c').events := by
  rw [Decoder.mem_events_bind hf]
  refine or_congr_right (exists_congr fun a => ?_)
  constructor
  · rintro ⟨t, ht, he⟩
    exact ⟨t.cursor, h.spans ht, he⟩
  · rintro ⟨c', hspans, he⟩
    obtain ⟨events, ht⟩ := (h ⟨c, #[]⟩ a c').2 hspans
    exact ⟨_, ht, he⟩

/-- Plain reads in front report nothing. -/
theorem mem_events_behind (h : Reads d R) (hd : Plain d) (hf : ∀ a, Composed (f a)) :
    e ∈ ((d >>= f).runAt c).events ↔ ∃ a c', Spans R a c c' ∧ e ∈ ((f a).runAt c').events := by
  rw [h.mem_events_bind hf, hd.events]
  simp

end Reads

end Decoder

namespace Spans

variable {α : Type} {R : Spelling α}

theorem nil_iff {c c' : Cursor} : Spans (InOrder R) [] c c' ↔ c' = c := by
  constructor
  · rintro ⟨taken, ht, hnil⟩
    cases hnil
    exact Cursor.Took.nil_iff.1 ht
  · rintro rfl
    exact ⟨[], by simp, .nil⟩

theorem cons_iff {x : α} {xs : List α} {c c' : Cursor} :
    Spans (InOrder R) (x :: xs) c c' ↔ ∃ c₁, Spans R x c c₁ ∧ Spans (InOrder R) xs c₁ c' := by
  constructor
  · rintro ⟨taken, ht, hcons⟩
    cases hcons with
    | cons head tail =>
      obtain ⟨c₁, h₁, h₂⟩ := Cursor.Took.append_iff.1 ht
      exact ⟨c₁, ⟨_, h₁, head⟩, _, h₂, tail⟩
  · rintro ⟨c₁, ⟨first, h₁, head⟩, rest, h₂, tail⟩
    exact ⟨first ++ rest, h₁.trans h₂, .cons head tail⟩

end Spans

namespace Decoder

variable {α : Type} {d : Decoder α} {R : Spelling α} {e : DecodeEvent}

theorem mem_events_times (hd : Reads d R) (hc : Composed d) :
    ∀ (n : Nat) (c : Cursor), e ∈ ((times d n).runAt c).events ↔
    ∃ before c', before.length < n ∧ Spans (InOrder R) before c c' ∧ e ∈ (d.runAt c').events
  | 0, c => by
    have hpure : ((times d 0).runAt c).events = #[] := rfl
    simp [hpure]
  | n + 1, c => by
    rw [times_succ, hd.mem_events_bind fun x => (hc.times n).bind fun xs => .pure _]
    simp only [events_map, mem_events_times hd hc n]
    constructor
    · rintro (hfirst | ⟨x, c₁, hx, before, c', hlen, hbefore, he⟩)
      · exact ⟨[], c, Nat.succ_pos n, Spans.nil_iff.2 rfl, hfirst⟩
      · exact ⟨x :: before, c', Nat.succ_lt_succ hlen, Spans.cons_iff.2 ⟨c₁, hx, hbefore⟩, he⟩
    · rintro ⟨before, c', hlen, hbefore, he⟩
      cases before with
      | nil =>
        rw [Spans.nil_iff.1 hbefore] at he
        exact .inl he
      | cons x before =>
        obtain ⟨c₁, hx, hbefore⟩ := Spans.cons_iff.1 hbefore
        exact .inr ⟨x, c₁, hx, before, c', Nat.lt_of_succ_lt_succ hlen, hbefore, he⟩

/-- **A counted list reports what its items report**, each at its place. -/
theorem mem_events_counted (hd : Reads d R) (hc : Composed d) {c : Cursor} :
    e ∈ ((counted d).runAt c).events ↔ ∃ c', BeginsItem R c c' ∧ e ∈ (d.runAt c').events := by
  rw [counted, Reads.u2.mem_events_behind .u2 fun n => hc.times n.toNat]
  simp only [mem_events_times hd hc]
  constructor
  · rintro ⟨n, first, hn, before, c', hlen, hbefore, he⟩
    exact ⟨c', ⟨n, first, before, hn, hlen, hbefore⟩, he⟩
  · rintro ⟨c', ⟨n, first, before, hn, hlen, hbefore⟩, he⟩
    exact ⟨n, first, hn, before, c', hlen, hbefore, he⟩

theorem mem_events_window {f : Cursor → Decoder α} (hf : ∀ w, Composed (f w)) {n : Nat} {c : Cursor} :
    e ∈ ((window n >>= f).runAt c).events ↔ ∃ w behind, w.remaining = n ∧ w.offset = c.offset ∧ c.Took w.bytes behind ∧
      e ∈ ((f w).runAt behind).events := by
  rw [mem_events_bind hf, (Plain.window n).events]
  simp only [window_eq_ok, Array.not_mem_empty, false_or]
  constructor
  · rintro ⟨w, t, ⟨hlen, ho, hw, -⟩, he⟩
    exact ⟨w, t.cursor, hlen, ho, hw, he⟩
  · rintro ⟨w, behind, hlen, ho, hw, he⟩
    exact ⟨w, ⟨behind, #[]⟩, ⟨hlen, ho, hw, rfl⟩, he⟩

end Decoder

open Decoder

/-! ## Attributes -/

/-- The window of an attribute with this name and length whose record begins at `c`.  The name is another than `Code`.
-/
def OpaqueWindowAt (pool : ConstantPool) (c : Cursor) (name : String) (length : UInt32) (window : Cursor) : Prop :=
  ∃ index start behind, pool.Names index name ∧ name ≠ "Code" ∧ c.Took (be2 index ++ be4 length) start ∧
    window.remaining = length.toNat ∧ window.offset = start.offset ∧ start.Took window.bytes behind

/-- The windows that are passed over: on a field, on a method, on the class, and at any depth in method bodies. -/
def SkippedWindow (bytes : Bytes) (name : String) (length : UInt32) (window : Cursor) : Prop :=
  ∃ pool c, AttributePlace bytes pool c ∧ OpaqueWindowAt pool c name length window

/-- The event is the report of an attribute whose record begins at `c`. -/
def ReportsAt (pool : ConstantPool) (c : Cursor) (e : DecodeEvent) : Prop :=
  ∃ name length window, OpaqueWindowAt pool c name length window ∧ e = .skippedAttribute name length window.offset

namespace Code

theorem plain_front : Plain front :=
  .bind .u2 fun _ => .bind .u2 fun _ => .bind .u4 fun length => .bind (.bytes length.toNat) fun _ =>
    .bind (.counted ExceptionHandler.plain_decoder) fun _ => .pure _

theorem mem_events_decoder {nested : Decoder (List Attribute)} (h : Composed nested) {c : Cursor} {e : DecodeEvent} :
    e ∈ ((decoder nested).runAt c).events ↔ ∃ body list, Spans Front body c list ∧ e ∈ (nested.runAt list).events := by
  rw [decoder_eq, reads_front.mem_events_behind plain_front fun body => h.bind fun _ => .pure body]
  simp only [events_map]

end Code

namespace Attribute

variable {pool : ConstantPool} {c : Cursor} {e : DecodeEvent}

theorem plain_head (pool : ConstantPool) : Plain (head pool) :=
  .bind .u2 fun index => .bind (.ofExcept (pool.utf8 index)) fun _ => .bind .u4 fun _ => .pure _

theorem reads_head (pool : ConstantPool) :
    Reads (head pool) fun h bytes => ∃ index, pool.Names index h.1 ∧ bytes = be2 index ++ be4 h.2 := by
  refine (Reads.u2.field fun index => (reads_name pool index).bind fun name => Reads.u4.map fun length =>
    (name, length)).congr
    fun h bytes => ?_
  constructor
  · rintro ⟨index, _, ⟨name, _, _, ⟨named, rfl⟩, ⟨length, rfl, rfl⟩, rfl⟩, rfl⟩
    exact ⟨index, named, rfl⟩
  · rintro ⟨index, named, rfl⟩
    exact ⟨index, _, ⟨h.1, _, _, ⟨named, rfl⟩, ⟨h.2, rfl, rfl⟩, rfl⟩, rfl⟩

theorem mem_events_skip {name : String} {length : UInt32} : e ∈ ((skip name length).runAt c).events ↔
    ∃ w behind : Cursor, w.remaining = length.toNat ∧ w.offset = c.offset ∧ c.Took w.bytes behind ∧
      e = .skippedAttribute name length w.offset := by
  rw [skip, mem_events_window fun w => .bind (.report _) fun _ => .pure _]
  simp only [mem_events_report]

theorem mem_events_codeIn {nested : Decoder (List Attribute)} {length : UInt32} :
    e ∈ ((codeIn length nested).runAt c).events ↔
    ∃ w behind : Cursor, w.remaining = length.toNat ∧ w.offset = c.offset ∧ c.Took w.bytes behind ∧
      e ∈ ((Code.decoder nested).runAt w).events := by
  constructor
  · intro he
    cases hw : window length.toNat ⟨c, #[]⟩ with
    | ok w t =>
      obtain ⟨hlen, ho, ht, -⟩ := window_eq_ok.1 hw
      rw [runAt_codeIn hw] at he
      exact ⟨w, t.cursor, hlen, ho, ht, he⟩
    | error err t =>
      have hcut : codeIn length nested ⟨c, #[]⟩ = .error err t := Decoder.bind_of_error hw
      rw [runAt_of_error hcut, (window_eq_error.1 hw).2.2] at he
      simp at he
  · rintro ⟨w, behind, hlen, ho, ht, he⟩
    have hw : window length.toNat ⟨c, #[]⟩ = .ok w ⟨behind, #[]⟩ := window_eq_ok.2 ⟨hlen, ho, ht, rfl⟩
    rw [runAt_codeIn hw]
    exact he

/-- **An attribute is reported when its window is passed over**, and nothing else is but what the attributes of its
method body report. -/
theorem mem_events_decoder : e ∈ ((decoder pool).runAt c).events ↔ ReportsAt pool c e ∨
    ∃ window body list, CodeWindowAt pool c window ∧ Spans Code.Front body window list ∧
      e ∈ ((listDecoder pool).runAt list).events := by
  have hlist := composed_listDecoder pool
  have hrest (h : String × UInt32) :
      Composed (if h.1 = codeName then codeIn h.2 (listDecoder pool) else skip h.1 h.2) := by
    split
    · exact composed_codeIn hlist h.2
    · exact composed_skip h.1 h.2
  rw [decoder_eq, record_eq, (reads_head pool).mem_events_behind (plain_head pool) hrest]
  constructor
  · rintro ⟨⟨name, length⟩, start, ⟨_, hstart, index, named, rfl⟩, he⟩
    dsimp only at named hstart he
    by_cases hcode : name = codeName
    · subst hcode
      rw [if_pos rfl] at he
      obtain ⟨w, behind, hlen, ho, hw, he⟩ := mem_events_codeIn.1 he
      obtain ⟨body, list, hfront, he⟩ := (Code.mem_events_decoder hlist).1 he
      exact .inr ⟨w, body, list, ⟨index, length, start, behind, named, hstart, hlen, ho, hw⟩, hfront, he⟩
    · rw [if_neg hcode] at he
      obtain ⟨w, behind, hlen, ho, hw, rfl⟩ := mem_events_skip.1 he
      exact .inl ⟨name, length, w, ⟨index, start, behind, named, hcode, hstart, hlen, ho, hw⟩, rfl⟩
  · rintro (⟨name, length, w, ⟨index, start, behind, named, hcode, hstart, hlen, ho, hw⟩, rfl⟩ |
      ⟨w, body, list, ⟨index, length, start, behind, named, hstart, hlen, ho, hw⟩, hfront, he⟩)
    · refine ⟨(name, length), start, ⟨_, hstart, index, named, rfl⟩, ?_⟩
      rw [if_neg (show ¬ name = codeName from hcode)]
      exact mem_events_skip.2 ⟨w, behind, hlen, ho, hw, rfl⟩
    · refine ⟨("Code", length), start, ⟨_, hstart, index, named, rfl⟩, ?_⟩
      rw [if_pos (show "Code" = codeName from rfl)]
      exact mem_events_codeIn.2 ⟨w, behind, hlen, ho, hw, (Code.mem_events_decoder hlist).2 ⟨body, list, hfront, he⟩⟩

theorem mem_events_listDecoder : e ∈ ((listDecoder pool).runAt c).events ↔
    ∃ c', BeginsItem (Spelled pool) c c' ∧ e ∈ ((decoder pool).runAt c').events :=
  mem_events_counted (reads_decoder pool) (composed_decoder pool)

/-- **What the list at a place reports is reported of a place of attributes.**  The induction is on the bytes that are
left, which become fewer from a list to the lists nested in it. -/
theorem reportsAt_of_list {bytes : Bytes} : ∀ (n : Nat) {c : Cursor}, c.remaining < n → ListPlace bytes pool c →
    e ∈ ((listDecoder pool).runAt c).events → ∃ c', AttributePlace bytes pool c' ∧ ReportsAt pool c' e
  | 0, _, hn, _, _ => absurd hn (Nat.not_lt_zero _)
  | n + 1, c, hn, hlist, he => by
    obtain ⟨record, hbegins, he⟩ := mem_events_listDecoder.1 he
    rcases mem_events_decoder.1 he with hreports | ⟨window, body, list, hopens, hfront, he⟩
    · exact ⟨record, ⟨c, hlist, hbegins⟩, hreports⟩
    · refine reportsAt_of_list n ?_ (.ofBody hlist hbegins hopens hfront) he
      have hrecord := hbegins.remaining_le
      have hwindow := hopens.remaining_le
      obtain ⟨taken, ht, hspelled⟩ := hfront
      have hten := hspelled.ten_le
      have hrem := ht.remaining
      omega

end Attribute

/-! ## Members and the class -/

theorem exists_be2 (two : Bytes) (h : two.length = 2) : ∃ v, two = be2 v := by
  refine ⟨UInt16.ofNat (beNat two), ?_⟩
  have hlt : beNat two < 256 ^ 2 := h ▸ beNat_lt two
  have hv : (UInt16.ofNat (beNat two)).toNat = beNat two := UInt16.toNat_ofNat_of_lt' hlt
  rw [be2, hv, ← h, beBytes_beNat]

theorem exists_be2_three (six : Bytes) (h : six.length = 6) : ∃ a b c, six = be2 a ++ be2 b ++ be2 c := by
  obtain ⟨a, ha⟩ := exists_be2 (six.take 2) (by simp [h])
  obtain ⟨b, hb⟩ := exists_be2 ((six.drop 2).take 2) (by simp [h])
  obtain ⟨c, hc⟩ := exists_be2 ((six.drop 2).drop 2) (by simp [h])
  refine ⟨a, b, c, ?_⟩
  rw [← ha, ← hb, ← hc, List.append_assoc, List.take_append_drop, List.take_append_drop]

namespace Member

variable {pool : ConstantPool} {c : Cursor} {e : DecodeEvent}

theorem mem_events_decoder : e ∈ ((decoder pool).runAt c).events ↔
    ∃ front list, front.length = 6 ∧ c.Took front list ∧ e ∈ ((Attribute.listDecoder pool).runAt list).events := by
  have hlist := Attribute.composed_listDecoder pool
  rw [decoder, Reads.u2.mem_events_behind .u2 fun _ => .bind .u2 fun _ => .bind .u2 fun _ => .bind hlist fun _ =>
    .pure _]
  simp only [Reads.u2.mem_events_behind .u2 fun _ => .bind .u2 fun _ => .bind hlist fun _ => .pure _,
    Reads.u2.mem_events_behind .u2 fun _ => .bind hlist fun _ => .pure _, events_map]
  constructor
  · rintro ⟨access, c₁, ⟨_, h₁, rfl⟩, nameIndex, c₂, ⟨_, h₂, rfl⟩, descriptorIndex, c₃, ⟨_, h₃, rfl⟩, he⟩
    exact ⟨_, c₃, by simp, (h₁.trans h₂).trans h₃, he⟩
  · rintro ⟨front, list, hsix, ht, he⟩
    obtain ⟨access, nameIndex, descriptorIndex, rfl⟩ := exists_be2_three front hsix
    obtain ⟨c₂, ht, h₃⟩ := Cursor.Took.append_iff.1 ht
    obtain ⟨c₁, h₁, h₂⟩ := Cursor.Took.append_iff.1 ht
    exact ⟨access, c₁, ⟨_, h₁, rfl⟩, nameIndex, c₂, ⟨_, h₂, rfl⟩, descriptorIndex, list, ⟨_, h₃, rfl⟩, he⟩

theorem mem_events_list : e ∈ ((counted (decoder pool)).runAt c).events ↔ ∃ member front list,
    BeginsItem (Spelled pool) c member ∧ front.length = 6 ∧ member.Took front list ∧
      e ∈ ((Attribute.listDecoder pool).runAt list).events := by
  rw [mem_events_counted (reads_decoder pool) (composed_decoder pool)]
  simp only [mem_events_decoder]
  constructor
  · rintro ⟨member, hbegins, front, list, hsix, ht, he⟩
    exact ⟨member, front, list, hbegins, hsix, ht, he⟩
  · rintro ⟨member, front, list, hbegins, hsix, ht, he⟩
    exact ⟨member, hbegins, front, list, hsix, ht, he⟩

end Member

namespace ClassFile

/-- Reads a class up to its interfaces. -/
def head : Decoder ClassFile := do
  magicDecoder
  let minorVersion ← Decoder.u2
  let majorVersion ← Decoder.u2
  let pool ← ConstantPool.decoder
  let access ← Decoder.u2
  let thisClass ← Decoder.u2
  let superClass ← Decoder.u2
  let interfaces ← Decoder.table
  return ⟨minorVersion, majorVersion, pool, ⟨access⟩, thisClass, superClass, interfaces, [], [], []⟩

/-- Reads what a class declares, behind its interfaces. -/
def declarations (c : ClassFile) : Decoder ClassFile := do
  let fields ← Decoder.counted (Member.decoder c.pool)
  let methods ← Decoder.counted (Member.decoder c.pool)
  let attributes ← Attribute.listDecoder c.pool
  Decoder.report (.decodedClass c.majorVersion c.minorVersion c.pool.count fields.length methods.length)
  return { c with fields := fields, methods := methods, attributes := attributes }

theorem decoder_eq : decoder = head >>= declarations := by
  simp only [decoder, head, declarations, bind_assoc, pure_bind]

theorem plain_head : Plain head :=
  .bind plain_magicDecoder fun _ => .bind .u2 fun _ => .bind .u2 fun _ => .bind ConstantPool.plain_decoder fun _ =>
    .bind .u2 fun _ => .bind .u2 fun _ => .bind .u2 fun _ => .bind (.counted .u2) fun _ => .pure _

theorem composed_declarations (c : ClassFile) : Composed (declarations c) :=
  .bind (.counted (Member.composed_decoder c.pool)) fun _ => .bind (.counted (Member.composed_decoder c.pool)) fun _ =>
    .bind (Attribute.composed_listDecoder c.pool) fun _ => .bind (.report _) fun _ => .pure _

/-- A class up to its interfaces, which declares nothing yet. -/
def HeadOf : Spelling ClassFile := fun c bytes =>
  ∃ constants table, c.pool.Spelled constants ∧ Counted TwoBytes c.interfaces table ∧
    (c.fields = [] ∧ c.methods = [] ∧ c.attributes = []) ∧
    bytes = be4 0xCAFEBABE ++ be2 c.minorVersion ++ be2 c.majorVersion ++ constants ++ be2 c.access.bits ++
      be2 c.thisClass ++
      be2 c.superClass ++ table

theorem reads_head : Reads head HeadOf := by
  refine (reads_magicDecoder.field fun _ => Reads.u2.field fun minorVersion => Reads.u2.field fun majorVersion =>
    ConstantPool.reads_decoder.bind fun pool => Reads.u2.field fun access => Reads.u2.field fun thisClass =>
    Reads.u2.field fun superClass => Reads.u2.counted.map fun interfaces =>
      ClassFile.mk minorVersion majorVersion pool ⟨access⟩ thisClass superClass interfaces [] [] []).congr
        fun c bytes => ?_
  constructor
  · rintro ⟨_, _, ⟨minorVersion, _, ⟨majorVersion, _, ⟨pool, _, _, hpool, ⟨access, _, ⟨thisClass, _, ⟨superClass, _,
      ⟨interfaces, rfl, hinterfaces⟩, rfl⟩, rfl⟩, rfl⟩, rfl⟩, rfl⟩, rfl⟩, rfl⟩
    exact ⟨_, _, hpool, hinterfaces, ⟨rfl, rfl, rfl⟩, by simp⟩
  · obtain ⟨minorVersion, majorVersion, pool, access, thisClass, superClass, interfaces, fields, methods,
      attributes⟩ := c
    rintro ⟨constants, table, hpool, hinterfaces, ⟨rfl, rfl, rfl⟩, rfl⟩
    exact ⟨(), _,
      ⟨_, _, ⟨_, _, ⟨_, _, _, hpool, ⟨_, _, ⟨_, _, ⟨_, _, ⟨_, rfl, hinterfaces⟩, rfl⟩, rfl⟩, rfl⟩, rfl⟩, rfl⟩, rfl⟩, by
        simp⟩

theorem head_iff {pool : ConstantPool} {bytes : Bytes} : Head pool bytes ↔ ∃ c, c.pool = pool ∧ HeadOf c bytes := by
  constructor
  · rintro ⟨minorVersion, majorVersion, access, thisClass, superClass, interfaces, constants, table, hpool, hinterfaces,
      rfl⟩
    exact ⟨⟨minorVersion, majorVersion, pool, ⟨access⟩, thisClass, superClass, interfaces, [], [], []⟩, rfl, constants,
      table, hpool, hinterfaces, ⟨rfl, rfl, rfl⟩, rfl⟩
  · rintro ⟨c, rfl, constants, table, hpool, hinterfaces, -, rfl⟩
    exact ⟨_, _, _, _, _, _, constants, table, hpool, hinterfaces, rfl⟩

variable {bytes : Bytes} {name : String} {length : UInt32} {start : Nat}

/-- The report of an attribute comes from the fields, from the methods or from the attributes behind them. -/
theorem mem_events_declarations {c : ClassFile} {fields : Cursor} :
    .skippedAttribute name length start ∈ ((declarations c).runAt fields).events ↔
      .skippedAttribute name length start ∈ ((counted (Member.decoder c.pool)).runAt fields).events ∨
      ∃ fs methods, Spans (Counted (Member.Spelled c.pool)) fs fields methods ∧
        (.skippedAttribute name length start ∈ ((counted (Member.decoder c.pool)).runAt methods).events ∨
          ∃ ms list, Spans (Counted (Member.Spelled c.pool)) ms methods list ∧
            .skippedAttribute name length start ∈ ((Attribute.listDecoder c.pool).runAt list).events) := by
  have hmembers := (Member.reads_decoder c.pool).counted
  have hcomposed := (Member.composed_decoder c.pool).counted
  have hlist := Attribute.composed_listDecoder c.pool
  rw [declarations, hmembers.mem_events_bind fun fs => .bind hcomposed fun ms => .bind hlist fun _ =>
    .bind (.report _) fun _ => .pure _]
  simp only [hmembers.mem_events_bind fun ms => .bind hlist fun _ => .bind (.report _) fun _ => .pure _,
    (Attribute.reads_listDecoder c.pool).mem_events_bind fun _ => .bind (.report _) fun _ => .pure _]
  -- what is reported last is the class, and no attribute
  simp only [mem_events_report, reduceCtorEq, and_false, exists_false, or_false]

theorem mem_events_decoder : .skippedAttribute name length start ∈ (decoder.runAt (.ofBytes bytes)).events ↔
    ∃ c fields, Spans HeadOf c (.ofBytes bytes) fields ∧
    .skippedAttribute name length start ∈ ((declarations c).runAt fields).events := by
  rw [decoder_eq, reads_head.mem_events_behind plain_head composed_declarations]

theorem spans_head_iff {pool : ConstantPool} {c c' : Cursor} :
    Spans Head pool c c' ↔ ∃ f, f.pool = pool ∧ Spans HeadOf f c c' := by
  constructor
  · rintro ⟨taken, ht, hhead⟩
    obtain ⟨f, hpool, hf⟩ := head_iff.1 hhead
    exact ⟨f, hpool, taken, ht, hf⟩
  · rintro ⟨f, hpool, taken, ht, hf⟩
    exact ⟨taken, ht, head_iff.2 ⟨f, hpool, hf⟩⟩

/-- **A list of attributes at its place is decoded**: what it reports is reported of the class. -/
theorem mem_events_of_list {pool : ConstantPool} {c : Cursor} (hplace : ListPlace bytes pool c)
    (hmem : .skippedAttribute name length start ∈ ((Attribute.listDecoder pool).runAt c).events) :
    .skippedAttribute name length start ∈ (decoder.runAt (.ofBytes bytes)).events := by
  induction hplace with
  | ofMember outer begins six behind =>
    have hmember := Member.mem_events_list.2 ⟨_, _, _, begins, six, behind, hmem⟩
    cases outer with
    | fields head =>
      obtain ⟨f, rfl, hf⟩ := spans_head_iff.1 head
      exact mem_events_decoder.2 ⟨f, _, hf, mem_events_declarations.2 (.inl hmember)⟩
    | methods head between =>
      obtain ⟨f, rfl, hf⟩ := spans_head_iff.1 head
      exact mem_events_decoder.2 ⟨f, _, hf, mem_events_declarations.2 (.inr ⟨_, _, between, .inl hmember⟩)⟩
  | ofClass head between behind =>
    obtain ⟨f, rfl, hf⟩ := spans_head_iff.1 head
    exact mem_events_decoder.2 ⟨f, _, hf, mem_events_declarations.2 (.inr ⟨_, _, between, .inr ⟨_, _, behind, hmem⟩⟩)⟩
  | ofBody outer begins opens behind ih =>
    have hrecord := Attribute.mem_events_decoder.2 (.inr ⟨_, _, _, opens, behind, hmem⟩)
    exact ih (Attribute.mem_events_listDecoder.2 ⟨_, begins, hrecord⟩)

/-- **What is reported of a class is reported at the place of an attribute.** -/
theorem reportsAt_of_decoder (hmem : .skippedAttribute name length start ∈ (decoder.runAt (.ofBytes bytes)).events) :
    ∃ pool c, AttributePlace bytes pool c ∧ ReportsAt pool c (.skippedAttribute name length start) := by
  obtain ⟨f, fields, hf, hmem⟩ := mem_events_decoder.1 hmem
  have hhead : Spans Head f.pool (.ofBytes bytes) fields := spans_head_iff.2 ⟨f, rfl, hf⟩
  have hlist {c : Cursor} (hplace : ListPlace bytes f.pool c)
      (h : .skippedAttribute name length start ∈ ((Attribute.listDecoder f.pool).runAt c).events) :
      ∃ pool c, AttributePlace bytes pool c ∧ ReportsAt pool c (.skippedAttribute name length start) :=
    ⟨f.pool, Attribute.reportsAt_of_list _ (Nat.lt_succ_self _) hplace h⟩
  have hmember {c : Cursor} (hplace : MembersPlace bytes f.pool c)
      (h : .skippedAttribute name length start ∈ ((counted (Member.decoder f.pool)).runAt c).events) :
      ∃ pool c, AttributePlace bytes pool c ∧ ReportsAt pool c (.skippedAttribute name length start) := by
    obtain ⟨member, front, list, hbegins, hsix, ht, h⟩ := Member.mem_events_list.1 h
    exact hlist (.ofMember hplace hbegins hsix ht) h
  rcases mem_events_declarations.1 hmem with h | ⟨fs, methods, hfields, h | ⟨ms, list, hmethods, h⟩⟩
  · exact hmember (.fields hhead) h
  · exact hmember (.methods hhead hfields) h
  · exact hlist (.ofClass hhead hfields hmethods) h

/-- What is left behind a class is refused without being looked at. -/
theorem parseWithEvents_eq (bytes : Bytes) : parseWithEvents bytes =
    ((decoder.runAt (.ofBytes bytes)).result >>= fun c =>
      if (decoder.runAt (.ofBytes bytes)).cursor.remaining = 0 then .ok c
      else .error (.trailingBytes (decoder.runAt (.ofBytes bytes)).cursor.offset
        (decoder.runAt (.ofBytes bytes)).cursor.remaining),
    (decoder.runAt (.ofBytes bytes)).events) := by
  cases hd : decoder ⟨.ofBytes bytes, #[]⟩ with
  | ok c t =>
    have hrest : wholeDecoder ⟨.ofBytes bytes, #[]⟩ = (finish >>= fun _ => pure c) t := Decoder.bind_of_ok hd
    rw [runAt_of_ok hd, parseWithEvents]
    by_cases hnil : t.cursor.remaining = 0
    · have hfinish : finish t = .ok () t := finish_eq_ok.2 ⟨List.length_eq_zero_iff.1 hnil, rfl⟩
      have hok : wholeDecoder ⟨.ofBytes bytes, #[]⟩ = .ok c t := hrest.trans (Decoder.bind_of_ok hfinish)
      rw [runAt_of_ok hok]
      simp [bind, Except.bind, hnil]
    · have hmore : t.cursor.bytes ≠ [] := fun h => hnil (List.length_eq_zero_iff.2 h)
      have herr := hrest.trans (Decoder.bind_of_error (finish_eq_error.2 ⟨hmore, rfl, rfl⟩))
      rw [runAt_of_error herr]
      simp [bind, Except.bind, hnil]
  | error e t =>
    have herr : wholeDecoder ⟨.ofBytes bytes, #[]⟩ = .error e t := Decoder.bind_of_error hd
    rw [runAt_of_error hd, parseWithEvents, runAt_of_error herr]
    rfl

/-- **The windows that are reported are those that are passed over**, whether the file is accepted or not. -/
theorem mem_events_iff : .skippedAttribute name length start ∈ (parseWithEvents bytes).2 ↔
    ∃ window, SkippedWindow bytes name length window ∧ window.offset = start := by
  rw [parseWithEvents_eq]
  constructor
  · intro hmem
    obtain ⟨pool, c, hplace, _, _, window, hopaque, he⟩ := reportsAt_of_decoder hmem
    cases he
    exact ⟨window, ⟨pool, c, hplace, hopaque⟩, rfl⟩
  · rintro ⟨window, ⟨pool, c, ⟨list, hlist, hbegins⟩, hopaque⟩, rfl⟩
    have hrecord := Attribute.mem_events_decoder.2 (.inl ⟨name, length, window, hopaque, rfl⟩)
    exact mem_events_of_list hlist (Attribute.mem_events_listDecoder.2 ⟨c, hbegins, hrecord⟩)

end ClassFile

end Jvm
