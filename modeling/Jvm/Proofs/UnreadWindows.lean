import Jvm.Proofs.Reports
/-!
# What is passed over is never looked at

Two runs of a decoder are compared, on buffers that differ at some *hidden* offsets.  A decoder is *blind* when it comes
to the same on both, provided that the hidden offsets it went over lie in windows that it reported.  A run that fails
has to answer for all that was before it, a run that succeeds only for what it took; since the reports of a decoder do
not reach beyond that (`Decoder.Blind.within`), blindness survives composition, and a window inside another needs no
argument of its own.

With the windows that a file has passed over, this says that their bytes matter to nothing:
`ClassFile.parse_ignores_skipped_windows`.
-/
namespace Jvm

/-- The event is the report of a window in which this offset lies. -/
def DecodeEvent.Covers : DecodeEvent → Nat → Prop
  | .skippedAttribute _ length start, i => start ≤ i ∧ i < start + length.toNat
  | .decodedClass .., _ => False

namespace Cursor

/-- The cursors stand at one offset with the same number of bytes before them, equal outside the hidden offsets. -/
structure SameBut (hidden : Nat → Prop) (c c' : Cursor) : Prop where
  offset : c'.offset = c.offset
  remaining : c'.remaining = c.remaining
  bytes : ∀ i, ¬ hidden (c.offset + i) → c'.bytes[i]? = c.bytes[i]?

namespace SameBut

variable {hidden : Nat → Prop} {c c' : Cursor}

theorem take (h : SameBut hidden c c') (n : Nat) :
    SameBut hidden ⟨c.offset, c.bytes.take n⟩ ⟨c'.offset, c'.bytes.take n⟩ := by
  have hlen : c'.bytes.length = c.bytes.length := h.remaining
  refine ⟨h.offset, by simp [Cursor.remaining, hlen], fun i hi => ?_⟩
  simp only [List.getElem?_take, h.bytes i hi]

theorem drop (h : SameBut hidden c c') (n : Nat) :
    SameBut hidden ⟨c.offset + n, c.bytes.drop n⟩ ⟨c'.offset + n, c'.bytes.drop n⟩ := by
  have hlen : c'.bytes.length = c.bytes.length := h.remaining
  refine ⟨by simp [h.offset], by simp [Cursor.remaining, hlen], fun i hi => ?_⟩
  simp only [List.getElem?_drop]
  exact h.bytes (n + i) (by rwa [← Nat.add_assoc])

theorem take_eq (h : SameBut hidden c c') {n : Nat} (hseen : ∀ i, i < n → ¬ hidden (c.offset + i)) :
    c'.bytes.take n = c.bytes.take n := by
  refine List.ext_getElem? fun i => ?_
  simp only [List.getElem?_take]
  split
  · exact h.bytes i (hseen i ‹i < n›)
  · rfl

end SameBut

end Cursor

namespace Decoded

variable {α : Type}

/-- How far a run from `c` answers for the bytes: to where it stopped, or to the end if it failed. -/
def reach (c : Cursor) (r : Decoded α) : Nat :=
  match r.result with
  | .ok _ => r.cursor.offset
  | .error _ => c.stop

/-- A run that goes on from `mid` answers as far as the rest of it does. -/
theorem reach_andThen {β : Type} {c mid : Cursor} (hstop : mid.stop = c.stop) (a : α) (events : Array DecodeEvent)
    (next : α → Cursor → Decoded β) :
    ((Decoded.mk (.ok a) mid events).andThen next).reach c = (next a mid).reach mid := by
  unfold reach andThen
  dsimp only
  cases (next a mid).result with
  | ok b => rfl
  | error e => exact hstop.symm

/-- The hidden offsets that a run from `c` answers for lie in windows that it reported. -/
def Confines (hidden : Nat → Prop) (c : Cursor) (r : Decoded α) : Prop :=
  ∀ i, hidden i → c.offset ≤ i → i < r.reach c → ∃ e ∈ r.events, e.Covers i

/-- **Each part of a run answers for its own**: a hidden offset in what the first part took lies in no window of the
rest, and the other way round. -/
theorem Confines.parts {β : Type} {hidden : Nat → Prop} {c mid : Cursor} {a : α} {events : Array DecodeEvent}
    {next : α → Cursor → Decoded β} (hstop : mid.stop = c.stop) (hmid : c.offset ≤ mid.offset)
    (hrest : mid.offset ≤ (next a mid).reach mid) (hbefore : ∀ e ∈ events, ∀ i, e.Covers i → i < mid.offset)
    (hbehind : ∀ e ∈ (next a mid).events, ∀ i, e.Covers i → mid.offset ≤ i)
    (h : ((Decoded.mk (.ok a) mid events).andThen next).Confines hidden c) :
    (Decoded.mk (.ok a) mid events).Confines hidden c ∧ (next a mid).Confines hidden mid := by
  have hreach := reach_andThen hstop a events next
  constructor
  · intro i hi hle hlt
    change i < mid.offset at hlt
    obtain ⟨e, he, hcovers⟩ := h i hi hle (by omega)
    rcases Array.mem_append.1 he with he | he
    · exact ⟨e, he, hcovers⟩
    · have hlate := hbehind e he i hcovers
      omega
  · intro i hi hle hlt
    obtain ⟨e, he, hcovers⟩ := h i hi (Nat.le_trans hmid hle) (by omega)
    rcases Array.mem_append.1 he with he | he
    · have hearly := hbefore e he i hcovers
      omega
    · exact ⟨e, he, hcovers⟩

/-- The runs come to the same, with the same reports, and stop at the same place. -/
structure SameBut (hidden : Nat → Prop) (r r' : Decoded α) : Prop where
  result : r'.result = r.result
  events : r'.events = r.events
  cursor : r.cursor.SameBut hidden r'.cursor

end Decoded

namespace Decoder

variable {α β : Type} {d : Decoder α} {f : α → Decoder β} {c : Cursor}

theorem Composed.runAt_took (h : Composed d) (c : Cursor) : ∃ taken, c.Took taken (d.runAt c).cursor := by
  cases hd : d ⟨c, #[]⟩ with
  | ok a t =>
    rw [runAt_of_ok hd]
    exact (h.took _).1 a t hd
  | error e t =>
    rw [runAt_of_error hd]
    exact (h.took _).2 e t hd

theorem Composed.offset_le (h : Composed d) (c : Cursor) : c.offset ≤ (d.runAt c).cursor.offset := by
  obtain ⟨taken, ht⟩ := h.runAt_took c
  exact ht.offset_le

theorem Composed.stop_eq (h : Composed d) (c : Cursor) : (d.runAt c).cursor.stop = c.stop := by
  obtain ⟨taken, ht⟩ := h.runAt_took c
  exact ht.stop

theorem Composed.offset_le_reach (h : Composed d) (c : Cursor) : c.offset ≤ (d.runAt c).reach c := by
  unfold Decoded.reach
  split
  · exact h.offset_le c
  · exact Nat.le_add_right _ _

theorem Composed.reach_le (h : Composed d) (c : Cursor) : (d.runAt c).reach c ≤ c.stop := by
  unfold Decoded.reach
  split
  · rw [← h.stop_eq c]
    exact Nat.le_add_right _ _
  · exact Nat.le_refl _

theorem runAt_bytes (n : Nat) (c : Cursor) : (bytes n).runAt c =
    if n ≤ c.remaining then ⟨.ok (c.bytes.take n), ⟨c.offset + n, c.bytes.drop n⟩, #[]⟩
    else ⟨.error (.truncatedInput c.offset n c.remaining), c, #[]⟩ := by
  unfold runAt bytes
  rw [Cursor.split?_eq]
  by_cases hn : n ≤ c.remaining
  · simp only [if_pos hn]
  · simp only [if_neg hn]

/-- The decoder comes to the same on bytes that differ only in the windows that it reports. -/
structure Blind (d : Decoder α) : Prop where
  composed : Composed d
  within : ∀ c, ∀ e ∈ (d.runAt c).events, ∀ i, e.Covers i → c.offset ≤ i ∧ i < (d.runAt c).reach c
  same : ∀ hidden c c', c.SameBut hidden c' → (d.runAt c).Confines hidden c → (d.runAt c).SameBut hidden (d.runAt c')

namespace Blind

theorem within_bind (hd : Blind d) (hf : ∀ a, Blind (f a)) (c : Cursor) {e : DecodeEvent} {i : Nat}
    (he : e ∈ ((d >>= f).runAt c).events) (hi : e.Covers i) : c.offset ≤ i ∧ i < ((d >>= f).runAt c).reach c := by
  have hwithin := hd.within c e
  have hmid := hd.composed.offset_le c
  have hstop := hd.composed.stop_eq c
  rw [runAt_bind fun a => (hf a).composed.appends] at he ⊢
  generalize d.runAt c = r at *
  obtain ⟨result, mid, events⟩ := r
  cases result with
  | error err => exact hwithin he i hi
  | ok a =>
    have hrest := (hf a).composed.offset_le_reach mid
    rw [Decoded.reach_andThen hstop]
    rcases Array.mem_append.1 he with he | he
    · have hfirst : c.offset ≤ i ∧ i < mid.offset := hwithin he i hi
      exact ⟨hfirst.1, Nat.lt_of_lt_of_le hfirst.2 hrest⟩
    · have hsecond := (hf a).within mid e he i hi
      exact ⟨Nat.le_trans hmid hsecond.1, hsecond.2⟩

/-- **Blind decoders one behind the other.** -/
theorem bind (hd : Blind d) (hf : ∀ a, Blind (f a)) : Blind (d >>= f) := by
  refine ⟨.bind hd.composed fun a => (hf a).composed, fun c e he i hi => within_bind hd hf c he hi,
    fun hidden c c' hc hconfines => ?_⟩
  have hwithin := hd.within c
  have hsame := hd.same hidden c c' hc
  have hmid := hd.composed.offset_le c
  have hstop := hd.composed.stop_eq c
  rw [runAt_bind fun a => (hf a).composed.appends] at hconfines ⊢
  rw [runAt_bind fun a => (hf a).composed.appends]
  generalize d.runAt c = r at *
  generalize d.runAt c' = r' at *
  obtain ⟨result, mid, events⟩ := r
  obtain ⟨result', mid', events'⟩ := r'
  cases result with
  | error err =>
    obtain ⟨hresult, hevents, hcursor⟩ := hsame hconfines
    dsimp only at hresult hevents hcursor
    subst hresult hevents
    exact ⟨rfl, rfl, hcursor⟩
  | ok a =>
    obtain ⟨hfirst, hsecond⟩ := hconfines.parts hstop hmid ((hf a).composed.offset_le_reach mid)
      (fun e he i hi => (hwithin e he i hi).2) fun e he i hi => ((hf a).within mid e he i hi).1
    obtain ⟨hresult, hevents, hcursor⟩ := hsame hfirst
    dsimp only at hresult hevents hcursor
    subst hresult hevents
    obtain ⟨hresult, hevents, hcursor⟩ := (hf a).same hidden mid mid' hcursor hsecond
    exact ⟨hresult, by simp [Decoded.andThen, hevents], hcursor⟩

end Blind

/-- Plain reads report nothing, and so answer for all that they take. -/
theorem Plain.blind (h : Plain d) : Blind d := by
  have hwithin {γ : Type} {g : Decoder γ} (hg : Plain g) (c : Cursor) :
      ∀ e ∈ (g.runAt c).events, ∀ i, e.Covers i → c.offset ≤ i ∧ i < (g.runAt c).reach c := by
    rw [hg.events]
    simp
  induction h with
  | pure a => exact ⟨.pure a, hwithin (.pure a), fun hidden c c' hc _ => ⟨rfl, rfl, hc⟩⟩
  | throw e => exact ⟨.throw e, hwithin (.throw e), fun hidden c c' hc _ => ⟨rfl, rfl, hc⟩⟩
  | offset => exact ⟨.offset, hwithin .offset, fun hidden c c' hc _ => ⟨congrArg Except.ok hc.offset, rfl, hc⟩⟩
  | bytes n =>
    refine ⟨.bytes n, hwithin (.bytes n), fun hidden c c' hc hconfines => ?_⟩
    rw [runAt_bytes] at hconfines ⊢
    rw [runAt_bytes, hc.remaining]
    by_cases hn : n ≤ c.remaining
    · rw [if_pos hn] at hconfines ⊢
      rw [if_pos hn]
      have hseen : ∀ i, i < n → ¬ hidden (c.offset + i) := by
        intro i hi hhidden
        obtain ⟨e, he, -⟩ := hconfines _ hhidden (Nat.le_add_right _ _) (Nat.add_lt_add_left hi _)
        simp at he
      exact ⟨congrArg Except.ok (hc.take_eq hseen), rfl, hc.drop n⟩
    · rw [if_neg hn, if_neg hn]
      exact ⟨by rw [hc.offset], rfl, hc⟩
  | bind _ _ ihd ihf => exact ihd.bind ihf

theorem Blind.times (h : Blind d) : ∀ n, Blind (Decoder.times d n)
  | 0 => (Plain.pure []).blind
  | n + 1 => by
    rw [times_succ]
    exact h.bind fun x => (times h n).bind fun xs => (Plain.pure (x :: xs)).blind

theorem Blind.counted (h : Blind d) : Blind (Decoder.counted d) := Plain.u2.blind.bind fun n => h.times n.toNat

theorem window_of_le {n : Nat} (hn : n ≤ c.remaining) :
    window n ⟨c, #[]⟩ = .ok ⟨c.offset, c.bytes.take n⟩ ⟨⟨c.offset + n, c.bytes.drop n⟩, #[]⟩ := by
  have hlen : (c.bytes.take n).length = n := List.length_take_of_le hn
  exact window_eq_ok.2 ⟨hlen, rfl, ⟨(List.take_append_drop n c.bytes).symm, by rw [hlen]⟩, rfl⟩

theorem window_of_lt {n : Nat} (hn : c.remaining < n) :
    window n ⟨c, #[]⟩ = .error (.truncatedInput c.offset n c.remaining) ⟨c, #[]⟩ := window_eq_error.2 ⟨hn, rfl, rfl⟩

theorem runAt_window_of_lt {f : Cursor → Decoder β} {n : Nat} (hn : c.remaining < n) :
    (window n >>= f).runAt c = ⟨.error (.truncatedInput c.offset n c.remaining), c, #[]⟩ :=
  runAt_of_error (Decoder.bind_of_error (window_of_lt hn))

/-- A window that cannot be cut out fails without a look at the bytes. -/
theorem sameBut_of_lt {f : Cursor → Decoder β} {hidden : Nat → Prop} {c' : Cursor} {n : Nat} (hc : c.SameBut hidden c')
    (hn : c.remaining < n) : ((window n >>= f).runAt c).SameBut hidden ((window n >>= f).runAt c') := by
  rw [runAt_window_of_lt hn, runAt_window_of_lt (hc.remaining ▸ hn), hc.remaining, hc.offset]
  exact ⟨rfl, rfl, hc⟩

end Decoder

open Decoder

namespace Attribute

theorem runAt_skip_of_le {c : Cursor} (name : String) {length : UInt32} (hn : length.toNat ≤ c.remaining) :
    (skip name length).runAt c = ⟨.ok (.skipped name length),
      ⟨c.offset + length.toNat, c.bytes.drop length.toNat⟩, #[.skippedAttribute name length c.offset]⟩ := by
  unfold runAt skip
  rw [Decoder.bind_of_ok (window_of_le hn)]
  rfl

/-- **A window that is passed over is covered by its own report.** -/
theorem blind_skip (name : String) (length : UInt32) : Blind (skip name length) := by
  refine ⟨composed_skip name length, fun c => ?_, fun hidden c c' hc _ => ?_⟩
  · rcases Nat.lt_or_ge c.remaining length.toNat with hn | hn
    · rw [skip, runAt_window_of_lt hn]
      simp
    · rw [runAt_skip_of_le name hn]
      intro e he i hi
      rw [List.mem_singleton.1 (Array.mem_toList_iff.2 he)] at hi
      exact hi
  · rcases Nat.lt_or_ge c.remaining length.toNat with hn | hn
    · exact sameBut_of_lt hc hn
    · rw [runAt_skip_of_le name hn, runAt_skip_of_le name (hc.remaining ▸ hn), hc.offset]
      exact ⟨rfl, rfl, hc.offset ▸ hc.drop length.toNat⟩

theorem ofBody_sameBut {hidden : Nat → Prop} {length : UInt32} {behind behind' : Cursor} {body body' : Decoded Code}
    (hbehind : behind.SameBut hidden behind') (hbody : body.SameBut hidden body') :
    (ofBody length behind body).SameBut hidden (ofBody length behind' body') := by
  have hrest := hbody.cursor.remaining
  have hempty : body'.cursor.isEmpty = body.cursor.isEmpty := by
    rw [Bool.eq_iff_iff, Cursor.isEmpty_iff, Cursor.isEmpty_iff, ← List.length_eq_zero_iff, ← List.length_eq_zero_iff]
    exact Eq.congr_left hrest
  refine ⟨?_, hbody.events, hbehind⟩
  simp only [ofBody, hbody.result, hempty, hrest]

/-- A method body does not reach out of its window, and its attribute answers for the whole of it. -/
theorem reach_body_le {nested : Decoder (List Attribute)} (h : Composed nested) {length : UInt32} {c : Cursor}
    (hn : length.toNat ≤ c.remaining) :
    ((Code.decoder nested).runAt ⟨c.offset, c.bytes.take length.toNat⟩).reach ⟨c.offset, c.bytes.take length.toNat⟩ ≤
      ((codeIn length nested).runAt c).reach c := by
  have hwindow := (Code.composed_decoder h).reach_le ⟨c.offset, c.bytes.take length.toNat⟩
  have hstop : Cursor.stop ⟨c.offset, c.bytes.take length.toNat⟩ = c.offset + length.toNat := by
    simp only [Cursor.stop, Cursor.remaining, List.length_take_of_le hn]
  refine Nat.le_trans (hstop ▸ hwindow) ?_
  rw [runAt_codeIn (window_of_le hn)]
  unfold Decoded.reach
  split
  · exact Nat.le_refl _
  · exact Nat.add_le_add_left hn _

/-- **Windows inside a window need no argument of their own**: the attribute reports what its body reports. -/
theorem blind_codeIn {nested : Decoder (List Attribute)} (h : Blind (Code.decoder nested)) (hnested : Composed nested)
    (length : UInt32) : Blind (codeIn length nested) := by
  refine ⟨composed_codeIn hnested length, fun c e he i hi => ?_, fun hidden c c' hc hconfines => ?_⟩
  · rcases Nat.lt_or_ge c.remaining length.toNat with hn | hn
    · rw [codeIn, runAt_window_of_lt hn] at he
      simp at he
    · rw [runAt_codeIn (window_of_le hn)] at he
      have hinner := h.within _ e he i hi
      exact ⟨hinner.1, Nat.lt_of_lt_of_le hinner.2 (reach_body_le hnested hn)⟩
  · rcases Nat.lt_or_ge c.remaining length.toNat with hn | hn
    · exact sameBut_of_lt hc hn
    · have hle := reach_body_le hnested hn
      rw [runAt_codeIn (window_of_le hn)] at hconfines hle ⊢
      rw [runAt_codeIn (window_of_le (hc.remaining ▸ hn))]
      refine ofBody_sameBut (hc.drop length.toNat) (h.same hidden _ _ (hc.take length.toNat) ?_)
      exact fun i hi hfrom hto => hconfines i hi hfrom (Nat.lt_of_lt_of_le hto hle)

theorem blind_record {nested : Nat → Decoder (List Attribute)} (h : ∀ length, Blind (nested length))
    (pool : ConstantPool) :
    Blind (record pool nested) := by
  have hbody (length : Nat) : Blind (Code.decoder (nested length)) := by
    rw [Code.decoder_eq]
    exact Code.plain_front.blind.bind fun body => (h length).bind fun _ => (Plain.pure body).blind
  rw [record_eq]
  refine (plain_head pool).blind.bind fun head => ?_
  split
  · exact blind_codeIn (hbody _) (h _).composed head.2
  · exact blind_skip head.1 head.2

theorem blind_listUpTo (pool : ConstantPool) : ∀ levels, Blind (listUpTo pool levels)
  | 0 => (Plain.pure []).blind
  | levels + 1 => (blind_record (fun _ => blind_listUpTo pool levels) pool).counted

theorem blind_listDecoder (pool : ConstantPool) : Blind (listDecoder pool) :=
  (blind_record (fun length => blind_listUpTo pool (levels length)) pool).counted

end Attribute

theorem Member.blind_decoder (pool : ConstantPool) : Blind (Member.decoder pool) :=
  Plain.u2.blind.bind fun _ => Plain.u2.blind.bind fun _ => Plain.u2.blind.bind fun _ =>
    (Attribute.blind_listDecoder pool).bind fun _ => (Plain.pure _).blind

namespace ClassFile

/-- The report of the class covers no window. -/
theorem blind_report {α : Type} (major minor constants : UInt16) (fields methods : Nat) (a : α) :
    Blind (report (.decodedClass major minor constants fields methods) >>= fun _ => pure a) := by
  refine ⟨.bind (.report _) fun _ => .pure a, fun c e he i hi => ?_, fun hidden c c' hc _ => ⟨rfl, rfl, hc⟩⟩
  rw [mem_events_report.1 he] at hi
  exact hi.elim

theorem blind_decoder : Blind decoder := by
  rw [decoder_eq]
  refine plain_head.blind.bind fun c => ?_
  exact (Member.blind_decoder c.pool).counted.bind fun _ => (Member.blind_decoder c.pool).counted.bind fun _ =>
    (Attribute.blind_listDecoder c.pool).bind fun _ => blind_report _ _ _ _ _ _

theorem sameBut_of_getElem? {b b' : Bytes} (hlen : b'.length = b.length) :
    (Cursor.ofBytes b).SameBut (fun i => b'[i]? ≠ b[i]?) (.ofBytes b') := by
  refine ⟨rfl, hlen, fun i hi => ?_⟩
  have hi : ¬ b'[0 + i]? ≠ b[0 + i]? := hi
  rw [Nat.zero_add] at hi
  exact Decidable.not_not.1 hi

/-- **The bytes of an attribute that is not understood are never looked at.**  The windows that a parse reports are
those of the attributes with another name than `Code`, wherever they stand.  Bytes that differ in these windows alone
give the same class or the same error, and the same reports in the same order. -/
theorem parse_ignores_skipped_windows (b : Bytes) :
    (∀ name length start, .skippedAttribute name length start ∈ (parseWithEvents b).2 ↔
      ∃ window, SkippedWindow b name length window ∧ window.offset = start) ∧
    ∀ b' : Bytes, b'.length = b.length →
      (∀ i, b'[i]? ≠ b[i]? → ∃ name length window, SkippedWindow b name length window ∧ window.offset ≤ i ∧
        i < window.stop) →
      parse b' = parse b ∧ (parseWithEvents b').2 = (parseWithEvents b).2 := by
  refine ⟨fun name length start => mem_events_iff, fun b' hlen hdiffers => ?_⟩
  have hconfines : (decoder.runAt (.ofBytes b)).Confines (fun i => b'[i]? ≠ b[i]?) (.ofBytes b) := by
    intro i hi _ _
    obtain ⟨name, length, window, hskipped, hfrom, hto⟩ := hdiffers i hi
    refine ⟨.skippedAttribute name length window.offset, ?_, hfrom, ?_⟩
    · have hmem := mem_events_iff.2 ⟨window, hskipped, rfl⟩
      rwa [parseWithEvents_eq] at hmem
    · obtain ⟨pool, c, -, index, start, behind, -, -, -, hfilled, -, -⟩ := hskipped
      rwa [← hfilled]
  obtain ⟨hresult, hevents, hcursor⟩ := blind_decoder.same _ _ _ (sameBut_of_getElem? hlen) hconfines
  unfold parse
  rw [parseWithEvents_eq, parseWithEvents_eq, hresult, hevents, hcursor.offset, hcursor.remaining]
  exact ⟨rfl, rfl⟩

/-- A class that is refused at its very end, with an attribute in a method body: its window of three bytes begins at
offset 65. -/
def refusedClass (window : Bytes) : Bytes :=
  be4 0xCAFEBABE ++
    [0, 0, 0, 52, 0, 3, 1, 0, 4, 0x43, 0x6F, 0x64, 0x65, 1, 0, 1, 0x58, 0, 32, 0, 0, 0, 0, 0, 0, 0, 0] ++
    [0, 1, 0, 0, 0, 0, 0, 0, 0, 1, 0, 1, 0, 0, 0, 21, 0, 1, 0, 1, 0, 0, 0, 0, 0, 0, 0, 1, 0, 2, 0, 0, 0, 3] ++ window ++
    [0, 2, 0, 2, 0, 0, 0, 0, 0, 9]

/-- Other bytes in the window leave the class refused for the same reason behind it, with the same reports. -/
theorem refusedClass_ignores_window :
    (∃ window, SkippedWindow (refusedClass [1, 2, 3]) "X" 3 window ∧ window.offset = 65) ∧
      refusedClass [0xCA, 0xFE, 0] ≠ refusedClass [1, 2, 3] ∧
      parse (refusedClass [1, 2, 3]) = .error (.invalidConstantIndex 9) ∧
      parse (refusedClass [0xCA, 0xFE, 0]) = .error (.invalidConstantIndex 9) ∧
      (parseWithEvents (refusedClass [0xCA, 0xFE, 0])).2 =
        #[.skippedAttribute "X" 3 65, .skippedAttribute "X" 0 76] := by
  have hparse : parse (refusedClass [1, 2, 3]) = .error (.invalidConstantIndex 9) := by decide +kernel
  have hevents : (parseWithEvents (refusedClass [1, 2, 3])).2 =
      #[.skippedAttribute "X" 3 65, .skippedAttribute "X" 0 76] := by
    decide +kernel
  obtain ⟨hreported, hsame⟩ := parse_ignores_skipped_windows (refusedClass [1, 2, 3])
  obtain ⟨window, hskipped, hstart⟩ := (hreported "X" 3 65).1 (by simp [hevents])
  have hlength : window.remaining = 3 := by
    obtain ⟨pool, c, -, index, start, behind, -, -, -, hfilled, -, -⟩ := hskipped
    exact hfilled
  have hwindow : ∀ i < 78, (refusedClass [0xCA, 0xFE, 0])[i]? ≠ (refusedClass [1, 2, 3])[i]? → 65 ≤ i ∧ i < 68 := by
    decide +kernel
  have hdiffers : ∀ i, (refusedClass [0xCA, 0xFE, 0])[i]? ≠ (refusedClass [1, 2, 3])[i]? → 65 ≤ i ∧ i < 68 := by
    intro i hi
    refine hwindow i (Nat.lt_of_not_le fun hle => hi ?_) hi
    rw [List.getElem?_eq_none hle, List.getElem?_eq_none hle]
  obtain ⟨hsameParse, hsameEvents⟩ := hsame (refusedClass [0xCA, 0xFE, 0]) rfl fun i hi =>
    ⟨"X", 3, window, hskipped, hstart ▸ (hdiffers i hi).1, by
      have hto := (hdiffers i hi).2
      rwa [Cursor.stop, hstart, hlength]⟩
  exact ⟨⟨window, hskipped, hstart⟩, by decide, hparse, hsameParse.trans hparse, hsameEvents.trans hevents⟩

end ClassFile

end Jvm
