import Jvm.Log.Record
import Jvm.Proofs.LaunchLog
/-!
# What is written down of a launch

A log is written down record by record.  Records say what happened: two events have the same record exactly if they
differ only in what no record shows, which is where a skipped attribute begins, where the next instruction stands and
how many values the stack can hold (`Event.toRecord_eq_iff`).  For this the texts of stacks, of local variables and of
instructions have to be read in one way only.

A launch writes down a warning exactly if it fails (`launch_warns_iff`).  If an instruction failed, the warning ends in
the pc of that instruction, and this is the pc of the last step that was written down: `launch_warning_names_step`.
-/
namespace Jvm

/-! ## Texts that are read in one way -/

/-- Where two texts go on with a character of another kind than their own, both end in the same place. -/
theorem append_inj_of_stop {p : Char → Prop} : ∀ {a b r r' : List Char}, (∀ c ∈ a, p c) → (∀ c ∈ b, p c) →
    (∀ c ∈ r.head?, ¬ p c) → (∀ c ∈ r'.head?, ¬ p c) → a ++ r = b ++ r' → a = b ∧ r = r'
  | [], [], _, _, _, _, _, _, h => ⟨rfl, h⟩
  | [], d :: b, r, r', _, hb, hr, _, h => by
    have hd : r.head? = some d := by rw [show r = d :: (b ++ r') from h]; rfl
    exact absurd (hb d List.mem_cons_self) (hr d hd)
  | c :: a, [], r, r', ha, _, _, hr', h => by
    have hc : r'.head? = some c := by rw [← show c :: (a ++ r) = r' from h]; rfl
    exact absurd (ha c List.mem_cons_self) (hr' c hc)
  | c :: a, d :: b, r, r', ha, hb, hr, hr', h => by
    obtain ⟨rfl, hrest⟩ := List.cons.inj h
    obtain ⟨rfl, hsame⟩ := append_inj_of_stop (fun x hx => ha x (.tail _ hx))
      (fun x hx => hb x (.tail _ hx)) hr hr' hrest
    exact ⟨rfl, hsame⟩

/-! ### Numbers -/

theorem isDigit_of_mem_natRepr {n : Nat} {c : Char} (h : c ∈ n.repr.toList) : c.isDigit = true := by
  rw [Nat.repr_eq_ofList_toDigits, String.toList_ofList] at h
  exact Nat.isDigit_of_mem_toDigits (by decide) (by decide) h

theorem natRepr_injective {m n : Nat} (h : m.repr = n.repr) : m = n := by
  rw [Nat.repr_eq_ofList_toDigits, Nat.repr_eq_ofList_toDigits, ← String.toList_inj, String.toList_ofList,
    String.toList_ofList] at h
  rw [← Nat.ofDigitChars_ten_toDigits (n := m), h, Nat.ofDigitChars_ten_toDigits]

theorem mem_intRepr {n : Int} {c : Char} (h : c ∈ n.repr.toList) : c = '-' ∨ c.isDigit = true := by
  rw [Int.repr_eq_if] at h
  split at h
  · exact .inr (isDigit_of_mem_natRepr h)
  · rw [String.toList_append, List.mem_append] at h
    rcases h with h | h
    · exact .inl (List.mem_singleton.1 h)
    · exact .inr (isDigit_of_mem_natRepr h)

theorem intRepr_ne_nil (n : Int) : n.repr.toList ≠ [] := by
  rw [Int.repr_eq_if]
  split
  · exact fun h => Nat.repr_ne_empty (String.toList_inj.1 h)
  · rw [String.toList_append]
    exact List.cons_ne_nil _ _

theorem sign_ne_natRepr (m n : Nat) : "-" ++ m.repr ≠ n.repr := by
  intro h
  have hmem : '-' ∈ n.repr.toList := by
    rw [← h, String.toList_append]
    exact List.mem_cons_self
  exact absurd (isDigit_of_mem_natRepr hmem) (by decide)

theorem intRepr_injective {m n : Int} (h : m.repr = n.repr) : m = n := by
  rw [Int.repr_eq_if, Int.repr_eq_if] at h
  split at h <;> split at h
  · have := natRepr_injective h
    omega
  · exact absurd h.symm (sign_ne_natRepr _ _)
  · exact absurd h (sign_ne_natRepr _ _)
  · rw [← String.toList_inj, String.toList_append, String.toList_append, List.append_cancel_left_eq,
      String.toList_inj] at h
    have := natRepr_injective h
    omega

/-! ### Rows of values -/

namespace Value

variable {v w : Value}

/-- The characters that values are written in. -/
def Written (c : Char) : Prop := c ≠ ',' ∧ c ≠ ']'

theorem written_of_mem_text {c : Char} (h : c ∈ v.text.toList) : Written c := by
  cases v with
  | int n => constructor <;> rintro rfl <;> exact absurd (mem_intRepr h) (by decide)
  | null => constructor <;> rintro rfl <;> exact absurd h (by decide)

theorem text_ne_nil (v : Value) : v.text.toList ≠ [] := by
  cases v with
  | int n => exact intRepr_ne_nil n.toInt
  | null => decide

theorem text_injective (h : v.text = w.text) : v = w := by
  have hnull : ∀ n : Int, n.repr ≠ "null" := fun n h => by
    have hmem : 'n' ∈ n.repr.toList := by rw [h]; decide
    exact absurd (mem_intRepr hmem) (by decide)
  cases v with
  | int n =>
    cases w with
    | int m => rw [Int32.toInt_inj.1 (intRepr_injective h)]
    | null => exact absurd h (hnull _)
  | null =>
    cases w with
    | int m => exact absurd h.symm (hnull _)
    | null => rfl

/-- What stands behind the first value of a row. -/
def rowRest : List Value → List Char
  | [] => [']']
  | v :: vs => ',' :: ' ' :: (v.text.toList ++ rowRest vs)

theorem not_written_head_rowRest : ∀ vs : List Value, ∀ c ∈ (rowRest vs).head?, ¬ Written c
  | [], c, h => by
    obtain rfl : ']' = c := Option.some.inj h
    exact fun hc => hc.2 rfl
  | _ :: _, c, h => by
    obtain rfl : ',' = c := Option.some.inj h
    exact fun hc => hc.1 rfl

theorem text_append_rowRest_inj {vs ws : List Value} (h : v.text.toList ++ rowRest vs = w.text.toList ++ rowRest ws) :
    v = w ∧ rowRest vs = rowRest ws := by
  obtain ⟨htext, hrest⟩ := append_inj_of_stop (fun _ => written_of_mem_text) (fun _ => written_of_mem_text)
    (not_written_head_rowRest vs) (not_written_head_rowRest ws) h
  exact ⟨text_injective (String.toList_inj.1 htext), hrest⟩

theorem rowRest_injective : ∀ {vs ws : List Value}, rowRest vs = rowRest ws → vs = ws
  | [], [], _ => rfl
  | [], _ :: _, h => absurd (List.cons.inj h).1 (by decide)
  | _ :: _, [], h => absurd (List.cons.inj h).1 (by decide)
  | v :: vs, w :: ws, h => by
    obtain ⟨rfl, hrest⟩ := text_append_rowRest_inj (List.cons.inj (List.cons.inj h).2).2
    rw [rowRest_injective hrest]

theorem intercalate_append_bracket (v : Value) (vs : List Value) :
    (", ".intercalate ((v :: vs).map text)).toList ++ [']'] = v.text.toList ++ rowRest vs := by
  induction vs generalizing v with
  | nil => simp [rowRest]
  | cons w vs ih =>
    rw [List.map_cons, List.map_cons, String.intercalate_cons_cons, ← List.map_cons, String.toList_append,
      List.append_assoc, ih w, String.toList_append, List.append_assoc]
    rfl

theorem toList_rowText (values : Array Value) : (rowText values).toList = '[' ::
    match values.toList with
    | [] => [']']
    | v :: vs => v.text.toList ++ rowRest vs := by
  rw [rowText, String.toList_append, String.toList_append, List.append_assoc]
  refine congrArg ('[' :: ·) ?_
  cases values.toList with
  | nil => rfl
  | cons v vs => exact intercalate_append_bracket v vs

/-- **A row of values is read from its text in one way.** -/
theorem rowText_injective {values values' : Array Value} (h : rowText values = rowText values') : values = values' := by
  have hrest :=
    (List.cons.inj ((toList_rowText values).symm.trans ((String.toList_inj.2 h).trans (toList_rowText values')))).2
  apply Array.toList_inj.1
  -- a row of none has its bracket where the first value would be
  have hbracket (v : Value) (vs : List Value) : [']'] ≠ v.text.toList ++ rowRest vs := fun heq =>
    v.text_ne_nil (append_inj_of_stop (a := []) (fun _ h => nomatch h) (fun _ => written_of_mem_text)
      (not_written_head_rowRest []) (not_written_head_rowRest vs) heq).1.symm
  cases hv : values.toList with
  | nil =>
    cases hw : values'.toList with
    | nil => rfl
    | cons w ws =>
      rw [hv, hw] at hrest
      exact absurd hrest (hbracket w ws)
  | cons v vs =>
    cases hw : values'.toList with
    | nil =>
      rw [hv, hw] at hrest
      exact absurd hrest.symm (hbracket v vs)
    | cons w ws =>
      rw [hv, hw] at hrest
      obtain ⟨rfl, hsame⟩ := text_append_rowRest_inj hrest
      rw [rowRest_injective hsame]

end Value

/-! ### Instructions -/

namespace Instruction

variable {i j : Instruction}

/-- What an instruction is called, without its operand. -/
def name : Instruction → String
  | nop => "nop"
  | aconstNull => "aconst_null"
  | push form _ => form.name
  | iload _ => "iload"
  | istore _ => "istore"
  | pop => "pop"
  | dup => "dup"
  | arith op => op.name
  | ret => "return"

/-- The operand of an instruction. -/
def operand? : Instruction → Option Int
  | push _ value => some value.toInt
  | iload index | istore index => some index.toNat
  | nop | aconstNull | pop | dup | arith _ | ret => none

/-- An operand as it follows the name. -/
def operandText : Option Int → List Char
  | none => []
  | some n => ' ' :: n.repr.toList

theorem toList_text (i : Instruction) : i.text.toList = i.name.toList ++ operandText i.operand? := by
  cases i with
  | push form value =>
    rw [text, String.toList_append, String.toList_append, List.append_assoc]
    rfl
  | iload index | istore index =>
    simp [text, name, operandText, operand?, Int.repr_eq_if]
  | nop | aconstNull | pop | dup | arith op | ret => exact (List.append_nil _).symm

theorem not_blank_of_mem_name {c : Char} (h : c ∈ i.name.toList) : c ≠ ' ' := by
  rintro rfl
  rcases i with _ | _ | ⟨_ | _ | _, _⟩ | _ | _ | _ | _ | ⟨_ | _ | _⟩ | _ <;>
    simp [name, PushForm.name, IntOp.name] at h

theorem operandText_injective : ∀ {m n : Option Int}, operandText m = operandText n → m = n
  | none, none, _ => rfl
  | none, some _, h => nomatch h
  | some _, none, h => nomatch h
  | some _, some _, h => congrArg some (intRepr_injective (String.toList_inj.1 (List.cons.inj h).2))

theorem blank_head_operandText : ∀ m : Option Int, ∀ c ∈ (operandText m).head?, ¬ c ≠ ' '
  | none, _, h => nomatch h
  | some _, _, h => not_not_intro (Option.some.inj h).symm

theorem eq_of_name (hname : i.name = j.name) (hoperand : i.operand? = j.operand?) : i = j := by
  have hindex {a b : UInt16} (h : some (a.toNat : Int) = some (b.toNat : Int)) : a = b :=
    UInt16.toNat_inj.1 (Int.ofNat_inj.1 (Option.some.inj h))
  have hvalue {a b : Int32} (h : some a.toInt = some b.toInt) : a = b := Int32.toInt_inj.1 (Option.some.inj h)
  rcases i with _ | _ | ⟨_ | _ | _, _⟩ | _ | _ | _ | _ | ⟨_ | _ | _⟩ | _ <;>
    rcases j with _ | _ | ⟨_ | _ | _, _⟩ | _ | _ | _ | _ | ⟨_ | _ | _⟩ | _ <;>
    first
      | rfl
      | exact congrArg _ (hindex hoperand)
      | exact congrArg _ (hvalue hoperand)
      | exact absurd hname (by simp [name, PushForm.name, IntOp.name])

/-- **An instruction is read from its text in one way.** -/
theorem text_injective (h : i.text = j.text) : i = j := by
  rw [← String.toList_inj, toList_text, toList_text] at h
  obtain ⟨hname, hoperand⟩ := append_inj_of_stop (fun _ => not_blank_of_mem_name) (fun _ => not_blank_of_mem_name)
    (blank_head_operandText _) (blank_head_operandText _) h
  exact eq_of_name (String.toList_inj.1 hname) (operandText_injective hoperand)

end Instruction

theorem Opcode.toByte_injective {op op' : Opcode} (h : op.toByte = op'.toByte) : op = op' := by
  have := congrArg ofByte? h
  rwa [ofByte?_toByte, ofByte?_toByte, Option.some.injEq] at this

/-! ## Events and their records -/

namespace Event

/-- An event without what no record shows of it. -/
def shown : Event → Event
  | decoding (.skippedAttribute name length _) => decoding (.skippedAttribute name length 0)
  | step s stack locals => step { s with nextPc := 0 } { stack with capacity := 0 } locals
  | e => e

theorem toRecord_shown (e : Event) : e.shown.toRecord = e.toRecord := by
  rcases e with (_ | _) | _ | _ | _ | _ <;> rfl

theorem shown_step_eq {s s' : Step} {stack stack' : OperandStack} {locals locals' : LocalVariables}
    (h : (step s stack locals).toRecord = (step s' stack' locals').toRecord) :
    (step s stack locals).shown = (step s' stack' locals').shown := by
  simp only [toRecord, LogRecord.mk.injEq, List.cons.injEq, Prod.mk.injEq, LogField.number.injEq, LogField.text.injEq,
    true_and, and_true] at h
  obtain ⟨hpc, hopcode, -, hinstruction, hstack, hlocals⟩ := h
  obtain rfl := LocalVariables.ext (Value.rowText_injective hlocals)
  simp only [shown, hpc, Opcode.toByte_injective (UInt8.toNat_inj.1 hopcode), Instruction.text_injective hinstruction,
    Value.rowText_injective hstack]

/-- **Records tell events apart**, but for what they do not show. -/
theorem toRecord_eq_iff {e e' : Event} : e.toRecord = e'.toRecord ↔ e.shown = e'.shown := by
  constructor
  · intro h
    rcases e with (_ | _) | _ | _ | _ | _ <;> rcases e' with (_ | _) | _ | _ | _ | _ <;>
      first
        | exact shown_step_eq h
        | simp_all [toRecord, DecodeEvent.toRecord, shown, UInt16.toNat_inj, UInt32.toNat_inj]
  · intro h
    rw [← toRecord_shown e, h, toRecord_shown]

theorem level_eq_warn_iff {e : Event} : e.toRecord.level = .warn ↔ ∃ name error, e = .failed name error := by
  rcases e with (_ | _) | _ | _ | _ | _ <;> simp [toRecord, DecodeEvent.toRecord]

end Event

/-! ## The records of a launch -/

/-- What a launch writes down. -/
def launchRecords (source : ClassSource) (mainClass : String) : List LogRecord :=
  (launchLogging (.recording #[]) source mainClass).2.events.toList.map Event.toRecord

section Launch

variable {source : ClassSource} {mainClass : String}

theorem launchRecords_of_thread {t : Thread} (h : MainThread source (internalForm mainClass) t) :
    launchRecords source mainClass =
      (launchReports source (internalForm mainClass) t.reports (launch source mainClass)).map Event.toRecord := by
  rw [launchRecords, launchLogging_of_thread h, Log.events]

theorem launchRecords_of_no_thread (h : ∀ t, ¬ MainThread source (internalForm mainClass) t) :
    launchRecords source mainClass =
      (launchReports source (internalForm mainClass) [] (launch source mainClass)).map Event.toRecord := by
  rw [launchRecords, (launch_of_no_thread h).2, Log.events]

theorem Thread.not_failed_mem_reports {t : Thread} {name error : String} : .failed name error ∉ t.reports := by
  intro h
  obtain ⟨i, hi⟩ := List.getElem?_of_mem h
  obtain ⟨t', f, below, s, -, -, -, hstep⟩ := (t.reports_getElem? i _).1 hi
  cases hstep

theorem not_failed_mem_decodingReports {name className error : String} :
    .failed className error ∉ decodingReports source name := by
  rw [decodingReports]
  cases source name <;> simp

theorem failed_mem_launchReports_iff {name : String} {steps : List Event} {result : Except LaunchError Nat}
    (hsteps : ∀ className error, .failed className error ∉ steps) {className error : String} :
    .failed className error ∈ launchReports source name steps result ↔
      className = name ∧ ∃ e : LaunchError, result = .error e ∧ error = e.message := by
  cases result <;>
    simp [launchReports, Event.outcome, not_failed_mem_decodingReports, hsteps, eq_comm]

/-- **A launch writes down a warning exactly if it fails.** -/
theorem launch_warns_iff (source : ClassSource) (mainClass : String) :
    (∃ r ∈ launchRecords source mainClass, r.level = .warn) ↔ ∃ e, launch source mainClass = .error e := by
  obtain ⟨steps, hsteps, hrecords⟩ : ∃ steps : List Event, (∀ className error, .failed className error ∉ steps) ∧
      launchRecords source mainClass =
        (launchReports source (internalForm mainClass) steps (launch source mainClass)).map Event.toRecord := by
    by_cases hthread : ∃ t, MainThread source (internalForm mainClass) t
    · obtain ⟨t, ht⟩ := hthread
      exact ⟨t.reports, fun _ _ => Thread.not_failed_mem_reports, launchRecords_of_thread ht⟩
    · exact ⟨[], fun _ _ => List.not_mem_nil, launchRecords_of_no_thread fun t ht => hthread ⟨t, ht⟩⟩
  rw [hrecords]
  constructor
  · rintro ⟨r, hr, hwarn⟩
    obtain ⟨event, hevent, rfl⟩ := List.mem_map.1 hr
    obtain ⟨className, error, rfl⟩ := Event.level_eq_warn_iff.1 hwarn
    obtain ⟨-, e, he, -⟩ := (failed_mem_launchReports_iff hsteps).1 hevent
    exact ⟨e, he⟩
  · rintro ⟨e, he⟩
    exact ⟨_, List.mem_map_of_mem ((failed_mem_launchReports_iff hsteps).2 ⟨rfl, e, he, rfl⟩), rfl⟩

theorem RuntimeError.RaisedAt.message_eq {pc : Nat} {e : RuntimeError} (h : e.RaisedAt pc) :
    ∃ what, e.message = what ++ " at pc " ++ toString pc := by
  cases e with
  | stackOverflow p =>
    obtain rfl := h
    exact ⟨"operand stack overflow", rfl⟩
  | stackUnderflow p =>
    obtain rfl := h
    exact ⟨"operand stack underflow", rfl⟩
  | localIndexOutOfRange index maxLocals p =>
    obtain rfl := h
    have hclose : ") at pc " = ")" ++ " at pc " := by decide
    have hjoin (front : String) : front ++ ") at pc " = front ++ ")" ++ " at pc " := by
      rw [String.append_assoc, ← hclose]
    exact ⟨_, congrArg (· ++ toString p)
      (hjoin ("local variable " ++ toString index ++ " out of range (max_locals " ++ toString maxLocals))⟩
  | typeMismatch expected p =>
    obtain rfl := h
    exact ⟨"expected " ++ expected, rfl⟩
  | _ => exact h.elim

/-- **The warning about an instruction points at the step before it.**  The last two records of a launch that an
instruction ended are the step of that instruction and the warning, and both give its pc. -/
theorem launch_warning_names_step {e : RuntimeError} {pc : Nat}
    (hlaunch : launch source mainClass = .error (.runtime e)) (hraised : e.RaisedAt pc) :
    ∃ earlier fields what, launchRecords source mainClass = earlier ++
      [⟨.trace, "minijvm::interp", "step", ("pc", .number pc) :: fields⟩,
        ⟨.warn, "minijvm::launcher", "launch failed",
          [("class", .text (internalForm mainClass)), ("error", .text (what ++ " at pc " ++ toString pc))]⟩] := by
  obtain ⟨what, hmessage⟩ := hraised.message_eq
  by_cases hthread : ∃ t, MainThread source (internalForm mainClass) t
  · obtain ⟨t, ht⟩ := hthread
    obtain ⟨e', hrun, hsame⟩ := mapError_runtime_eq_error.1 ((launch_of_thread ht).symm.trans hlaunch)
    cases hsame
    rcases Thread.reports_of_run_eq_error hrun with ⟨hundecodable, -⟩ | ⟨s, stack, locals, hlast, hs⟩
    · exact absurd hundecodable hraised.not_undecodable
    · obtain ⟨steps, hsteps⟩ := List.getLast?_eq_some_iff.1 hlast
      obtain rfl := hs.pc_eq hraised
      refine ⟨(Event.starting (internalForm mainClass) ::
        (decodingReports source (internalForm mainClass) ++ steps)).map Event.toRecord,
        (Event.step s stack locals).toRecord.fields.tail, what, ?_⟩
      rw [launchRecords_of_thread ht, hlaunch, launchReports, hsteps, ← hmessage]
      simp [Event.outcome, Event.toRecord, LaunchError.message]
  · obtain ⟨⟨e', he', hbefore⟩, -⟩ := launch_of_no_thread fun t ht => hthread ⟨t, ht⟩
    cases he'.symm.trans hlaunch
    exact absurd hbefore (not_beforeRun (.inr ⟨pc, hraised⟩))

end Launch

end Jvm
