import Jvm.Proofs.UnreadWindows
/-!
# Many readers over one buffer

Readers come from readers: a window gets a reader of its own, and a copy goes on from where its original stands.  A
history says which reader was asked for what, in which order, and the requests may fail at any place.  Whatever the
history, each reader keeps to the part of the buffer that it was made for, it only moves forward, and it moves for its
own requests alone: `Readers.reached_invariant`.

A decoder that is composed of primitive reads takes a first part of what its cursor has before it
(`Decoder.Composed.took`).  That is all that has to be known of the composite requests.
-/
namespace Jvm

open Decoder

/-! ## Parts of a buffer -/

/-- The bytes before the cursor are those of the buffer from its offset on. -/
structure Cursor.SliceOf (c : Cursor) (root : Bytes) : Prop where
  stop_le : c.stop ≤ root.length
  bytes : c.bytes = root.extract c.offset c.stop

namespace Cursor.SliceOf

variable {root taken : Bytes} {c c' : Cursor}

theorem ofBytes (root : Bytes) : (Cursor.ofBytes root).SliceOf root := by
  have hstop : (Cursor.ofBytes root).stop = root.length := Nat.zero_add _
  refine ⟨Nat.le_of_eq hstop, ?_⟩
  rw [hstop]
  simp [Cursor.ofBytes]

theorem took (h : c.SliceOf root) (ht : c.Took taken c') : c'.SliceOf root := by
  have hrest : c'.bytes = c.bytes.drop taken.length := by rw [ht.1, List.drop_left]
  refine ⟨ht.stop ▸ h.stop_le, ?_⟩
  rw [hrest, h.bytes, ht.stop, ht.2, List.drop_take, List.drop_drop, Nat.sub_sub]

/-- The next bytes as those of the buffer. -/
theorem take_eq (h : c.SliceOf root) {n : Nat} (hn : n ≤ c.remaining) :
    c.bytes.take n = root.extract c.offset (c.offset + n) := by
  have hroom : c.stop - c.offset = c.remaining := Nat.add_sub_cancel_left _ _
  rw [h.bytes, List.take_take, hroom, Nat.min_eq_left hn, List.extract_eq_take_drop, Nat.add_sub_cancel_left]

theorem window (h : c.SliceOf root) {n : Nat} (hn : n ≤ c.remaining) :
    Cursor.SliceOf ⟨c.offset, c.bytes.take n⟩ root := by
  have hstop : Cursor.stop ⟨c.offset, c.bytes.take n⟩ = c.offset + n := by
    simp only [Cursor.stop, Cursor.remaining, List.length_take_of_le hn]
  refine ⟨?_, ?_⟩
  · rw [hstop]
    exact Nat.le_trans (Nat.add_le_add_left hn _) h.stop_le
  · rw [hstop]
    exact h.take_eq hn

end Cursor.SliceOf

/-! ## Reads of a fixed width -/

inductive Primitive where
  | u1
  | u2
  | u4
  | i4
  | i8
  | bytes (n : Nat)

namespace Primitive

def width : Primitive → Nat
  | .u1 => 1
  | .u2 => 2
  | .u4 => 4
  | .i4 => 4
  | .i8 => 8
  | .bytes n => n

@[reducible] def Value : Primitive → Type
  | .u1 => UInt8
  | .u2 => UInt16
  | .u4 => UInt32
  | .i4 => Int32
  | .i8 => Int64
  | .bytes _ => Bytes

def decoder : (p : Primitive) → Decoder p.Value
  | .u1 => Decoder.u1
  | .u2 => Decoder.u2
  | .u4 => Decoder.u4
  | .i4 => Decoder.i4
  | .i8 => Decoder.i8
  | .bytes n => Decoder.bytes n

/-- The value is what these bytes are as a number, most significant byte first, or the bytes themselves.  A signed
number is the representative of the unsigned one around zero. -/
def Denotes : (p : Primitive) → Bytes → p.Value → Prop
  | .u1, bs, v => v.toNat = beNat bs
  | .u2, bs, v => v.toNat = beNat bs
  | .u4, bs, v => v.toNat = beNat bs
  | .i4, bs, v => v.toInt = Int.bmod (beNat bs) (2 ^ 32)
  | .i8, bs, v => v.toInt = Int.bmod (beNat bs) (2 ^ 64)
  | .bytes _, bs, v => v = bs

/-- A read at a cursor into the buffer takes its bytes and no others, or reports how many are missing and takes none. -/
def ExactAt (root : Bytes) (c : Cursor) (p : Primitive) : Prop :=
  (p.width ≤ c.remaining → ∃ v, p.Denotes (root.extract c.offset (c.offset + p.width)) v ∧
    p.decoder.runAt c = ⟨.ok v, ⟨c.offset + p.width, c.bytes.drop p.width⟩, #[]⟩) ∧
  (c.remaining < p.width → p.decoder.runAt c = ⟨.error (.truncatedInput c.offset p.width c.remaining), c, #[]⟩)

def ofBytes : (p : Primitive) → Bytes → p.Value
  | .u1, bs => UInt8.ofNat (beNat bs)
  | .u2, bs => UInt16.ofNat (beNat bs)
  | .u4, bs => UInt32.ofNat (beNat bs)
  | .i4, bs => (UInt32.ofNat (beNat bs)).toInt32
  | .i8, bs => (UInt64.ofNat (beNat bs)).toInt64
  | .bytes _, bs => bs

theorem decoder_eq (p : Primitive) : p.decoder = (do return p.ofBytes (← Decoder.bytes p.width)) := by
  cases p <;> simp [decoder, ofBytes, width, Decoder.u1, Decoder.u2, Decoder.u4, Decoder.u8, Decoder.i4, Decoder.i8,
    number]

theorem plain_decoder (p : Primitive) : Plain p.decoder := by
  rw [decoder_eq]
  exact .bind (.bytes _) fun _ => .pure _

theorem denotes_ofBytes (p : Primitive) {bs : Bytes} (h : bs.length = p.width) : p.Denotes bs (p.ofBytes bs) := by
  have hlt := beNat_lt bs
  rw [h] at hlt
  cases p with
  | u1 => exact UInt8.toNat_ofNat_of_lt' hlt
  | u2 => exact UInt16.toNat_ofNat_of_lt' hlt
  | u4 => exact UInt32.toNat_ofNat_of_lt' hlt
  | i4 => exact BitVec.toInt_ofNat ..
  | i8 => exact BitVec.toInt_ofNat ..
  | bytes n => rfl

theorem runAt_decoder (p : Primitive) (c : Cursor) : p.decoder.runAt c =
    if p.width ≤ c.remaining then
      ⟨.ok (p.ofBytes (c.bytes.take p.width)), ⟨c.offset + p.width, c.bytes.drop p.width⟩, #[]⟩
    else ⟨.error (.truncatedInput c.offset p.width c.remaining), c, #[]⟩ := by
  rw [decoder_eq, runAt_bind fun _ => (Composed.pure _).appends, runAt_bytes]
  split <;> rfl

theorem decoder_eq_error {p : Primitive} {s t : DecodeState} {e : DecodeError} (h : p.decoder s = .error e t) :
    s.cursor.remaining < p.width ∧ e = .truncatedInput s.cursor.offset p.width s.cursor.remaining ∧ t = s := by
  rw [decoder_eq] at h
  rcases bind_eq_error.1 h with h | ⟨bs, u, -, h⟩
  · exact bytes_eq_error.1 h
  · exact absurd h pure_ne_error

theorem exactAt {root : Bytes} {c : Cursor} (h : c.SliceOf root) (p : Primitive) : p.ExactAt root c := by
  refine ⟨fun hle => ?_, fun hlt => ?_⟩
  · rw [runAt_decoder, if_pos hle, ← h.take_eq hle]
    exact ⟨_, p.denotes_ofBytes (List.length_take_of_le hle), rfl⟩
  · rw [runAt_decoder, if_neg (Nat.not_le.2 hlt)]

end Primitive

/-! ## Tables -/

namespace Decoder

variable {root : Bytes} {c c' : Cursor}

theorem number_of_spans (h : c.SliceOf root) {x : UInt16} (hx : Spans TwoBytes x c c') :
    c'.offset = c.offset + 2 ∧ x.toNat = beNat (root.extract c.offset (c.offset + 2)) := by
  obtain ⟨_, ht, rfl⟩ := hx
  have hlen : (be2 x).length = 2 := length_be2 x
  have hroom : 2 ≤ c.remaining := by
    rw [ht.remaining, hlen]
    exact Nat.le_add_right _ _
  refine ⟨by rw [ht.2, hlen], ?_⟩
  rw [← h.take_eq hroom, ht.1, List.take_left' hlen, beNat_be2]

theorem numbers_of_spans (h : c.SliceOf root) {xs : List UInt16} (hxs : Spans (InOrder TwoBytes) xs c c') :
    c'.offset = c.offset + 2 * xs.length ∧
      ∀ i x, xs[i]? = some x → x.toNat = beNat (root.extract (c.offset + 2 * i) (c.offset + 2 * i + 2)) := by
  induction xs generalizing c with
  | nil =>
    rw [Spans.nil_iff.1 hxs]
    simp
  | cons x xs ih =>
    obtain ⟨mid, hx, hrest⟩ := Spans.cons_iff.1 hxs
    obtain ⟨hmid, hvalue⟩ := number_of_spans h hx
    obtain ⟨_, ht, -⟩ := hx
    obtain ⟨hend, hvalues⟩ := ih (h.took ht) hrest
    refine ⟨by rw [hend, hmid, List.length_cons]; omega, fun i y hy => ?_⟩
    cases i with
    | zero =>
      obtain rfl : x = y := by simpa using hy
      exact hvalue
    | succ i =>
      have hplace : c.offset + 2 * (i + 1) = mid.offset + 2 * i := by omega
      rw [hplace]
      exact hvalues i y (by simpa using hy)

/-- A table at a cursor into the buffer is the numbers behind its count.  One that is cut short leaves the reader in
front of its count or in front of its first number that is not there, and that is the place it reports. -/
def TableAt (root : Bytes) (c : Cursor) (r : Decoded (List UInt16)) : Prop :=
  match r.result with
  | .ok xs => xs.length = beNat (root.extract c.offset (c.offset + 2)) ∧
    r.cursor.offset = c.offset + 2 + 2 * xs.length ∧
      ∀ i x, xs[i]? = some x → x.toNat = beNat (root.extract (c.offset + 2 + 2 * i) (c.offset + 2 + 2 * i + 2))
  | .error e => r.cursor.remaining < 2 ∧ e = .truncatedInput r.cursor.offset 2 r.cursor.remaining ∧
      (r.cursor = c ∨ r.cursor.stop = c.stop ∧
        ∃ j, j < beNat (root.extract c.offset (c.offset + 2)) ∧ r.cursor.offset = c.offset + 2 + 2 * j)

theorem tableAt (h : c.SliceOf root) : TableAt root c (table.runAt c) := by
  cases htable : table ⟨c, #[]⟩ with
  | ok xs t =>
    rw [runAt_of_ok htable]
    obtain ⟨_, htook, @⟨_, count, items, hcount, hitems⟩⟩ := Reads.u2.counted.spans htable
    obtain ⟨first, hfirst, hrest⟩ := Cursor.Took.append_iff.1 htook
    obtain ⟨hplace, hvalue⟩ := number_of_spans h ⟨_, hfirst, rfl⟩
    obtain ⟨hend, hvalues⟩ := numbers_of_spans (h.took hfirst) ⟨_, hrest, hitems⟩
    rw [hplace] at hend hvalues
    exact ⟨hcount.trans hvalue, hend, hvalues⟩
  | error e t =>
    rw [runAt_of_error htable]
    rcases counted_error Reads.u2 htable with hfail | ⟨u, ⟨count, first, before, hfirst, hlt, hspans⟩, hfail⟩
    · obtain ⟨hshort, rfl, rfl⟩ := Primitive.decoder_eq_error (p := .u2) hfail
      exact ⟨hshort, rfl, .inl rfl⟩
    · obtain ⟨hshort, rfl, rfl⟩ := Primitive.decoder_eq_error (p := .u2) hfail
      obtain ⟨hplace, hvalue⟩ := number_of_spans h hfirst
      obtain ⟨_, hcount, -⟩ := hfirst
      obtain ⟨hend, -⟩ := numbers_of_spans (h.took hcount) hspans
      obtain ⟨_, hbefore, -⟩ := hspans
      exact ⟨hshort, rfl, .inr ⟨hbefore.stop.trans hcount.stop, before.length, hvalue ▸ hlt, by rw [hend, hplace]⟩⟩

end Decoder

/-! ## Requests -/

/-- What a reader can be asked for. -/
inductive Request where
  | primitive (p : Primitive)
  | table
  | window (n : Nat)
  | copy
  | constants
  | record (pool : ConstantPool)
  | records (pool : ConstantPool)
  | classFile

namespace Request

@[reducible] def Answer : Request → Type
  | .primitive p => p.Value
  | .table => List UInt16
  | .window _ => Cursor
  | .copy => Unit
  | .constants => ConstantPool
  | .record _ => Attribute
  | .records _ => List Attribute
  | .classFile => ClassFile

def decoder : (q : Request) → Decoder q.Answer
  | .primitive p => p.decoder
  | .table => Decoder.table
  | .window n => Decoder.window n
  | .copy => Pure.pure ()
  | .constants => ConstantPool.decoder
  | .record pool => Attribute.decoder pool
  | .records pool => Attribute.listDecoder pool
  | .classFile => ClassFile.decoder

theorem composed_decoder : (q : Request) → Composed q.decoder
  | .primitive p => p.plain_decoder.composed
  | .table => .counted .u2
  | .window n => .window n
  | .copy => .pure ()
  | .constants => ConstantPool.plain_decoder.composed
  | .record pool => Attribute.composed_decoder pool
  | .records pool => Attribute.composed_listDecoder pool
  | .classFile => ClassFile.composed_decoder

end Request

/-- A reader, with the part of the buffer that it was made for: where that begins, and its bytes. -/
structure Reader where
  part : Cursor
  cursor : Cursor
  deriving DecidableEq

namespace Reader

def ofCursor (c : Cursor) : Reader := ⟨c, c⟩

def asked (r : Reader) (q : Request) : Reader := { r with cursor := (q.decoder.runAt r.cursor).cursor }

/-- The readers that come of a request: a window has one of its own, and a copy stands where its original stands. -/
def offspring (r : Reader) : Request → List Reader
  | .window n =>
    match ((window n).runAt r.cursor).result with
    | .ok w => [ofCursor w]
    | .error _ => []
  | .copy => [r]
  | _ => []

end Reader

namespace Readers

/-- Readers are numbered by their age.  A request to one that does not exist does nothing. -/
def ask (rs : List Reader) (request : Nat × Request) : List Reader :=
  match rs[request.1]? with
  | some r => rs.set request.1 (r.asked request.2) ++ r.offspring request.2
  | none => rs

def reached (root : Bytes) (history : List (Nat × Request)) : List Reader :=
  history.foldl ask [.ofCursor (.ofBytes root)]

/-- The requests of a history that one reader was asked for. -/
def requestsTo (k : Nat) (history : List (Nat × Request)) : List Request :=
  history.filterMap fun request => if request.1 = k then some request.2 else none

end Readers

/-! ## What a request preserves -/

namespace Reader

variable {root : Bytes} {r : Reader}

/-- The reader stands in its part of the buffer. -/
structure Keeps (root : Bytes) (r : Reader) : Prop where
  slice : r.part.SliceOf root
  took : ∃ taken, r.part.Took taken r.cursor

namespace Keeps

theorem ofCursor {c : Cursor} (h : c.SliceOf root) : Keeps root (.ofCursor c) := ⟨h, [], by simp [Reader.ofCursor]⟩

theorem cursor_slice (h : Keeps root r) : r.cursor.SliceOf root := by
  obtain ⟨taken, ht⟩ := h.took
  exact h.slice.took ht

theorem asked (h : Keeps root r) (q : Request) : Keeps root (r.asked q) := by
  obtain ⟨taken, ht⟩ := h.took
  obtain ⟨more, hmore⟩ := q.composed_decoder.runAt_took r.cursor
  exact ⟨h.slice, taken ++ more, ht.trans hmore⟩

end Keeps

theorem offspring_window_of_le {n : Nat} (hn : n ≤ r.cursor.remaining) :
    r.offspring (.window n) = [.ofCursor ⟨r.cursor.offset, r.cursor.bytes.take n⟩] := by
  simp only [offspring, runAt_of_ok (window_of_le hn)]

theorem Keeps.offspring (h : Keeps root r) (q : Request) : ∀ r' ∈ r.offspring q, Keeps root r' := by
  intro r' hr'
  cases q with
  | window n =>
    rcases Nat.lt_or_ge r.cursor.remaining n with hn | hn
    · simp [Reader.offspring, runAt_of_error (window_of_lt hn)] at hr'
    · rw [offspring_window_of_le hn, List.mem_singleton] at hr'
      rw [hr']
      exact .ofCursor (h.cursor_slice.window hn)
  | copy =>
    rw [List.mem_singleton.1 hr']
    exact h
  | primitive p => cases hr'
  | table => cases hr'
  | constants => cases hr'
  | record pool => cases hr'
  | records pool => cases hr'
  | classFile => cases hr'

/-- Over the life of a reader its part stays what it is, and its cursor moves forward in it. -/
theorem foldl_asked (r : Reader) (qs : List Request) : (qs.foldl asked r).part = r.part ∧
    ∃ taken, r.cursor.Took taken (qs.foldl asked r).cursor := by
  induction qs generalizing r with
  | nil => exact ⟨rfl, [], by simp⟩
  | cons q qs ih =>
    obtain ⟨hpart, more, hmore⟩ := ih (r.asked q)
    obtain ⟨taken, ht⟩ := q.composed_decoder.runAt_took r.cursor
    exact ⟨hpart, taken ++ more, ht.trans hmore⟩

end Reader

namespace Readers

open Reader

variable {root : Bytes} {rs : List Reader} {r : Reader} {k : Nat}

theorem ask_of_getElem? (h : rs[k]? = some r) (q : Request) :
    ask rs (k, q) = rs.set k (r.asked q) ++ r.offspring q := by
  simp only [ask, h]

theorem keeps_ask (h : ∀ r ∈ rs, Keeps root r) (request : Nat × Request) : ∀ r ∈ ask rs request, Keeps root r := by
  intro r' hr'
  obtain ⟨k, q⟩ := request
  cases hk : rs[k]? with
  | none =>
    rw [ask, hk] at hr'
    exact h r' hr'
  | some r =>
    have hr := h r (List.mem_of_getElem? hk)
    rw [ask_of_getElem? hk] at hr'
    rcases List.mem_append.1 hr' with hr' | hr'
    · rcases List.mem_or_eq_of_mem_set hr' with hr' | rfl
      · exact h r' hr'
      · exact hr.asked q
    · exact hr.offspring q r' hr'

theorem keeps_reached (root : Bytes) (history : List (Nat × Request)) : ∀ r ∈ reached root history, Keeps root r := by
  have hrun : ∀ (rs : List Reader), (∀ r ∈ rs, Keeps root r) → ∀ r ∈ history.foldl ask rs, Keeps root r := by
    induction history with
    | nil => exact fun rs h => h
    | cons request history ih => exact fun rs h => ih _ (keeps_ask h request)
  refine hrun _ fun r hr => ?_
  rw [List.mem_singleton.1 hr]
  exact .ofCursor (.ofBytes root)

/-- **A request moves the reader that was asked, and no other.** -/
theorem getElem?_ask (h : rs[k]? = some r) (j : Nat) (q : Request) :
    (ask rs (j, q))[k]? = some (if j = k then r.asked q else r) := by
  have hk : k < rs.length := (List.getElem?_eq_some_iff.1 h).1
  by_cases hj : j = k
  · subst hj
    rw [ask_of_getElem? h, List.getElem?_append_left (by simpa using hk), if_pos rfl, List.getElem?_set_self hk]
  · rw [if_neg hj]
    cases hother : rs[j]? with
    | none => rw [ask, hother, h]
    | some r' =>
      rw [ask_of_getElem? hother, List.getElem?_append_left (by simpa using hk), List.getElem?_set_ne hj, h]

/-- **What becomes of a reader is what its own requests make of it**, whatever the others are asked for in between. -/
theorem getElem?_foldl_ask (h : rs[k]? = some r) (more : List (Nat × Request)) :
    (more.foldl ask rs)[k]? = some ((requestsTo k more).foldl asked r) := by
  induction more generalizing rs r with
  | nil => exact h
  | cons request more ih =>
    obtain ⟨j, q⟩ := request
    rw [List.foldl_cons, ih (getElem?_ask h j q)]
    by_cases hj : j = k <;> simp [requestsTo, hj]

theorem reached_append {root : Bytes} (history more : List (Nat × Request)) :
    reached root (history ++ more) = more.foldl ask (reached root history) := List.foldl_append

/-- **Every reader of a history keeps to its part of the buffer.**  Its part is a slice of the buffer, and the reader
stands inside it with the rest of it before it.  Whatever is asked for later, of this reader or of others, the part and
the end stay, the offset does not decrease, and the reader is what its own requests make of it.  Reads of a fixed width
and windows are exact or change nothing, and a table that fails stops where it failed. -/
theorem reached_invariant (root : Bytes) (history : List (Nat × Request)) (k : Nat) (r : Reader)
    (h : (reached root history)[k]? = some r) :
    (r.part.SliceOf root ∧ r.cursor.SliceOf root ∧ r.part.offset ≤ r.cursor.offset ∧ r.cursor.offset ≤ r.part.stop ∧
        r.cursor.stop = r.part.stop) ∧
      (∀ more, ∃ r', (reached root (history ++ more))[k]? = some r' ∧ r' = (requestsTo k more).foldl asked r ∧
        r'.part = r.part ∧ r.cursor.offset ≤ r'.cursor.offset ∧ r'.cursor.stop = r.cursor.stop) ∧
      (∀ p : Primitive, p.ExactAt root r.cursor) ∧ TableAt root r.cursor (table.runAt r.cursor) ∧
      ∀ n, (n ≤ r.cursor.remaining → reached root (history ++ [(k, .window n)]) =
          (reached root history).set k ⟨r.part, ⟨r.cursor.offset + n, r.cursor.bytes.drop n⟩⟩ ++
            [.ofCursor ⟨r.cursor.offset, root.extract r.cursor.offset (r.cursor.offset + n)⟩]) ∧
        (r.cursor.remaining < n → reached root (history ++ [(k, .window n)]) = reached root history ∧
          ((window n).runAt r.cursor).result = .error (.truncatedInput r.cursor.offset n r.cursor.remaining)) := by
  have hkeeps := keeps_reached root history r (List.mem_of_getElem? h)
  have hslice := hkeeps.cursor_slice
  obtain ⟨taken, ht⟩ := hkeeps.took
  refine ⟨⟨hkeeps.slice, hslice, ht.offset_le, ht.stop ▸ Nat.le_add_right _ _, ht.stop⟩, fun more => ?_,
    Primitive.exactAt hslice, tableAt hslice, fun n => ⟨fun hn => ?_, fun hn => ?_⟩⟩
  · obtain ⟨hpart, later, hlater⟩ := r.foldl_asked (requestsTo k more)
    refine ⟨_, ?_, rfl, hpart, hlater.offset_le, hlater.stop⟩
    rw [reached_append]
    exact getElem?_foldl_ask h more
  · rw [reached_append, List.foldl_cons, List.foldl_nil, ask_of_getElem? h, offspring_window_of_le hn,
      hslice.take_eq hn]
    simp only [asked, Request.decoder, runAt_of_ok (window_of_le hn)]
  · have hrun := runAt_of_error (window_of_lt hn)
    have hsame : r.asked (.window n) = r := by simp only [asked, Request.decoder, hrun]
    have hnone : r.offspring (.window n) = [] := by simp only [offspring, hrun]
    refine ⟨?_, by rw [hrun]⟩
    rw [reached_append, List.foldl_cons, List.foldl_nil, ask_of_getElem? h, hsame, hnone, List.append_nil]
    obtain ⟨hk, rfl⟩ := List.getElem?_eq_some_iff.1 h
    exact List.set_getElem_self hk

/-- A table of two numbers without the last byte of the second, and `-2`. -/
def shortTable : Bytes := [0x00, 0x02, 0x00, 0x07, 0x09, 0xFF, 0xFF, 0xFF, 0xFE]

/-- The table is read in a window, and its copy goes another way: to a count of seven constants of which not one is
there. -/
def shortTableHistory : List (Nat × Request) :=
  [(0, .window 5), (1, .copy), (1, .table), (2, .window 9), (2, .primitive .u2), (2, .constants),
    (0, .primitive (.bytes (2 ^ 64 - 1)))]

/-- Each of the three readers stands where its own requests have left it, and the first is still in front of its number.
-/
theorem shortTable_readers :
    (reached shortTable shortTableHistory).map
      (fun r => (r.part.offset, r.part.remaining, r.cursor.offset, r.cursor.remaining)) =
        [(0, 9, 5, 4), (0, 5, 4, 1), (0, 5, 5, 0)] ∧
      (∀ more, ∃ r, (reached shortTable (shortTableHistory ++ more))[1]? = some r ∧ 4 ≤ r.cursor.offset ∧
        r.cursor.stop = 5) ∧
      ∃ r v, (reached shortTable shortTableHistory)[0]? = some r ∧ Int32.toInt v = -2 ∧
        (Decoder.i4.runAt r.cursor).result = .ok v := by
  have hfirst : (reached shortTable shortTableHistory)[0]? = some ⟨⟨0, shortTable⟩, ⟨5, [0xFF, 0xFF, 0xFF, 0xFE]⟩⟩ := by
    decide +kernel
  have hsecond : (reached shortTable shortTableHistory)[1]? = some ⟨⟨0, shortTable.take 5⟩, ⟨4, [0x09]⟩⟩ := by
    decide +kernel
  refine ⟨by decide +kernel, fun more => ?_, ?_⟩
  · obtain ⟨r, hr, -, -, hle, hstop⟩ := (reached_invariant _ _ _ _ hsecond).2.1 more
    exact ⟨r, hr, hle, hstop⟩
  · obtain ⟨v, hv, hrun⟩ := ((reached_invariant _ _ _ _ hfirst).2.2.1 .i4).1 (by decide)
    exact ⟨_, v, hfirst, hv.trans (by decide), congrArg Decoded.result hrun⟩

end Readers

end Jvm
