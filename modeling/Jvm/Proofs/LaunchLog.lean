import Jvm.Launch.Basic
import Jvm.Proofs.Failures
import Jvm.Proofs.Launching
/-!
# The log tells the truth

What a launch reports, and that it is what happened: `launch_log_truthful`.  Three things that come about in different
places have to agree: an instruction is reported before it is executed, it is counted after it was executed, and an
error is taken from where it arises.  So a run that succeeds reports as many instructions as it counts, and a run that
fails in an instruction has reported one more than were executed.

`Thread.reports` is what a run appends to the log, whatever was there before.
-/
namespace Jvm

/-! ## What a run reports -/

namespace Thread

variable {t t' : Thread} {s : Step} {e : RuntimeError}

theorem recordStep_recording (events : Array Event) (t : Thread) :
    (Log.recording events).recordStep t = .recording (events ++ t.stepEvent?.toArray) := by
  rw [Log.recordStep]
  cases t.stepEvent? with
  | none => simp
  | some e => simp

/-- What a run reports. -/
def reports (t : Thread) : List Event := (t.runLogging (.recording #[])).log.events.toList

/-- **A run appends to the log**, and what it appends does not depend on what was there. -/
theorem runLogging_recording (t : Thread) (events : Array Event) :
    (t.runLogging (.recording events)).log = .recording (events ++ t.reports.toArray) := by
  unfold reports
  induction t using run_induction generalizing events with
  | finished t hframes => simp [runLogging_of_finished hframes, Log.events]
  | failed t e t' hframes hstep => simp [runLogging_of_error hframes hstep, recordStep_recording, Log.events]
  | next t s t' hstep ih =>
    simp only [runLogging_of_step hstep, recordStep_recording]
    rw [ih (events ++ t.stepEvent?.toArray), ih (#[] ++ t.stepEvent?.toArray)]
    simp only [Log.events, Array.toArray_toList, Array.empty_append, Array.append_assoc]

/-- The log makes no difference to the result. -/
theorem runLogging_result (t : Thread) (log log' : Log) : (t.runLogging log).result = (t.runLogging log').result := by
  induction t using run_induction generalizing log log' with
  | finished t hframes => rw [runLogging_of_finished hframes, runLogging_of_finished hframes]
  | failed t e t' hframes hstep => rw [runLogging_of_error hframes hstep, runLogging_of_error hframes hstep]
  | next t s t' hstep ih =>
    rw [runLogging_of_step hstep, runLogging_of_step hstep]
    exact congrArg (Except.map (· + 1)) (ih _ _)

theorem reports_of_finished (h : t.frames = []) : t.reports = [] := by
  rw [reports, runLogging_of_finished h]
  rfl

theorem reports_of_error (hframes : t.frames ≠ []) (h : t.step = .error e t') : t.reports = t.stepEvent?.toList := by
  rw [reports, runLogging_of_error hframes h, recordStep_recording]
  cases t.stepEvent? <;> rfl

theorem reports_of_step (h : t.step = .ok s t') : t.reports = t.stepEvent?.toList ++ t'.reports := by
  rw [reports, runLogging_of_step h, recordStep_recording]
  simp only [runLogging_recording]
  cases t.stepEvent? <;> simp [Log.events]

theorem stepEvent?_of_fetch {f : Frame} {below : List Frame} (ht : t.frames = f :: below) (hfetch : f.fetch = .ok s) :
    t.stepEvent? = some (.step s f.stack f.locals) := by
  simp only [stepEvent?, ht, hfetch]

theorem stepEvent?_of_undecodable {f : Frame} {below : List Frame} (ht : t.frames = f :: below)
    (hfetch : f.fetch = .error e) :
    t.stepEvent? = none := by
  simp only [stepEvent?, ht, hfetch]

theorem stepEvent?_of_step (h : t.step = .ok s t') : ∃ f below, t.frames = f :: below ∧ f.fetch = .ok s ∧
    t.stepEvent? = some (.step s f.stack f.locals) := by
  obtain ⟨f, below, ht, hfetch, -⟩ := step_eq_ok h
  exact ⟨f, below, ht, hfetch, stepEvent?_of_fetch ht hfetch⟩

/-! ### Reports and steps -/

/-- The report that is due when `i` steps have succeeded: the instruction that the active frame then decodes, and what
that frame has in store. -/
def DueAt (t : Thread) (i : Nat) (report : Event) : Prop :=
  ∃ t' f below s, t.after i = .ok t' ∧ t'.frames = f :: below ∧ f.fetch = .ok s ∧ report = .step s f.stack f.locals

theorem dueAt_zero {f : Frame} {below : List Frame} (ht : t.frames = f :: below) {report : Event} :
    t.DueAt 0 report ↔ ∃ s, f.fetch = .ok s ∧ report = .step s f.stack f.locals := by
  constructor
  · rintro ⟨t', f', below', s, hafter, ht', hfetch, hreport⟩
    cases hafter
    obtain ⟨rfl, -⟩ := List.cons.inj (ht.symm.trans ht')
    exact ⟨s, hfetch, hreport⟩
  · rintro ⟨s, hfetch, hreport⟩
    exact ⟨t, f, below, s, rfl, ht, hfetch, hreport⟩

theorem dueAt_succ_of_step (h : t.step = .ok s t') {i : Nat} {report : Event} :
    t.DueAt (i + 1) report ↔ t'.DueAt i report := by
  unfold DueAt
  rw [after_succ_of_step h]

theorem not_dueAt_succ (h : t.step = .error e t') {i : Nat} {report : Event} : ¬ t.DueAt (i + 1) report := by
  rintro ⟨u, f, below, s, hafter, -⟩
  rw [after_succ_of_error h] at hafter
  cases hafter

/-- **The reports of a run are those that are due**, each in its place. -/
theorem reports_getElem? (t : Thread) (i : Nat) (report : Event) : t.reports[i]? = some report ↔ t.DueAt i report := by
  induction t using run_induction generalizing i with
  | finished t hframes =>
    rw [reports_of_finished hframes]
    refine iff_of_false (fun h => nomatch h) fun h => ?_
    cases i with
    | zero =>
      obtain ⟨t', f, below, s, hafter, ht', -⟩ := h
      cases hafter
      rw [hframes] at ht'
      cases ht'
    | succ i => exact absurd h (not_dueAt_succ (step_nil hframes))
  | failed t e t' hframes hstep =>
    obtain ⟨f, below, ht⟩ := List.exists_cons_of_ne_nil hframes
    rw [reports_of_error hframes hstep]
    cases i with
    | succ i =>
      refine iff_of_false (fun h => ?_) (not_dueAt_succ hstep)
      cases hevent : t.stepEvent? <;> simp [hevent] at h
    | zero =>
      rw [dueAt_zero ht]
      cases hfetch : f.fetch with
      | error e' => simp [stepEvent?_of_undecodable ht hfetch]
      | ok s => simp [stepEvent?_of_fetch ht hfetch, eq_comm]
  | next t s t' hstep ih =>
    obtain ⟨f, below, ht, hfetch, hevent⟩ := stepEvent?_of_step hstep
    rw [reports_of_step hstep, hevent]
    cases i with
    | zero =>
      rw [dueAt_zero ht, hfetch]
      simp [eq_comm]
    | succ i =>
      rw [dueAt_succ_of_step hstep, ← ih]
      rfl

/-! ### Reports and results -/

/-- **A run that succeeds has reported as many instructions as it counts.** -/
theorem length_reports_of_ok {n : Nat} (h : t.run.1 = .ok n) : t.reports.length = n := by
  induction t using run_induction generalizing n with
  | finished t hframes =>
    rw [run_of_finished hframes] at h
    cases h
    rw [reports_of_finished hframes]
    rfl
  | failed t e t' hframes hstep =>
    rw [run_of_error hframes hstep] at h
    cases h
  | next t s t' hstep ih =>
    obtain ⟨f, below, -, -, hevent⟩ := stepEvent?_of_step hstep
    rw [run_of_step hstep] at h
    obtain ⟨m, hm, rfl⟩ := map_add_eq_ok.1 h
    rw [reports_of_step hstep, hevent, List.length_append, ih hm, Option.toList_some, List.length_singleton,
      Nat.add_comm]

/-- **A run that fails has executed all that it reported**, for want of an instruction; or all but the last, which is
the one that failed. -/
theorem reports_of_run_eq_error (h : t.run.1 = .error e) :
    (e.IsUndecodable ∧ ∃ t', t.after t.reports.length = .ok t') ∨
      ∃ s stack locals, t.reports.getLast? = some (.step s stack locals) ∧ e.RaisedAt s.pc := by
  induction t using run_induction with
  | finished t hframes =>
    rw [run_of_finished hframes] at h
    cases h
  | failed t e' t' hframes hstep =>
    rw [run_of_error hframes hstep] at h
    cases h
    obtain ⟨f, below, ht⟩ := List.exists_cons_of_ne_nil hframes
    rw [reports_of_error hframes hstep]
    rcases step_error_cases ht hstep with ⟨hfetch, hundecodable, -⟩ | ⟨s, hfetch, hraised⟩
    · rw [stepEvent?_of_undecodable ht hfetch]
      exact .inl ⟨hundecodable, t, rfl⟩
    · rw [stepEvent?_of_fetch ht hfetch]
      exact .inr ⟨s, _, _, rfl, hraised⟩
  | next t s t' hstep ih =>
    obtain ⟨f, below, -, -, hevent⟩ := stepEvent?_of_step hstep
    rw [run_of_step hstep] at h
    rw [reports_of_step hstep, hevent]
    rcases ih (map_add_eq_error.1 h) with ⟨hundecodable, u, hafter⟩ | ⟨s', stack, locals, hlast, hraised⟩
    · refine .inl ⟨hundecodable, u, ?_⟩
      rw [← hafter, ← after_succ_of_step hstep, Option.toList_some, List.length_append, List.length_singleton,
        Nat.add_comm]
    · refine .inr ⟨s', stack, locals, ?_, hraised⟩
      rw [List.getLast?_append, hlast]
      rfl

end Thread

/-! ## What a launch reports -/

/-- The errors of a launch that comes to no run. -/
def LaunchError.BeforeRun : LaunchError → Prop
  | .classNotFound _ | .mainMethodNotFound _ | .decode _ | .runtime (.missingCode _) => True
  | .runtime _ => False

/-- What is reported while the class of this name is decoded. -/
def decodingReports (source : ClassSource) (name : String) : List Event :=
  match source name with
  | none => []
  | some bytes => (ClassFile.parseWithEvents bytes).2.toList.map .decoding

/-- The last word on a launch. -/
def Event.outcome (name : String) : Except LaunchError Nat → Event
  | .ok executed => .finished name executed
  | .error e => .failed name e.message

/-- The class of this name is found and decoded, has a main method, and this is the thread that runs it. -/
def MainThread (source : ClassSource) (name : String) (t : Thread) : Prop :=
  ∃ bytes c m body, source name = some bytes ∧ ClassFile.parse bytes = .ok c ∧ c.mainMethod? = .ok (some m) ∧
    m.code? = some body ∧
    t = ⟨0, [.ofCode body], Thread.defaultMaxDepth⟩

/-- The log once the class of this name is decoded. -/
def Log.afterDecoding (log : Log) (source : ClassSource) (name : String) : Log :=
  match source name with
  | none => log
  | some bytes => log.recordDecoding (ClassFile.parseWithEvents bytes).2

theorem afterDecoding_recording (events : Array Event) (source : ClassSource) (name : String) :
    (Log.recording events).afterDecoding source name =
      .recording (events ++ (decodingReports source name).toArray) := by
  rw [Log.afterDecoding, decodingReports]
  cases source name with
  | none => simp only [Array.append_empty]
  | some bytes => simp only [Log.recordDecoding, ← Array.toList_map, Array.toArray_toList]

section RunClass

variable {source : ClassSource} {name : String}

theorem MainThread.unique {t u : Thread} (ht : MainThread source name t) (hu : MainThread source name u) : t = u := by
  obtain ⟨bytes, c, m, body, hsource, hparse, hmain, hcode, rfl⟩ := ht
  obtain ⟨bytes', c', m', body', hsource', hparse', hmain', hcode', rfl⟩ := hu
  cases hsource.symm.trans hsource'
  cases hparse.symm.trans hparse'
  cases hmain.symm.trans hmain'
  cases hcode.symm.trans hcode'
  rfl

theorem runClass_of_thread {t : Thread} (h : MainThread source name t) (log : Log) : runClass source name log =
    ((t.runLogging (log.afterDecoding source name)).result.mapError .runtime,
      (t.runLogging (log.afterDecoding source name)).log) := by
  obtain ⟨bytes, c, m, body, hsource, hparse, hmain, hcode, rfl⟩ := h
  rcases hboth : ClassFile.parseWithEvents bytes with ⟨parsed, events⟩
  obtain rfl : parsed = .ok c := by rw [← hparse, ClassFile.parse, hboth]
  have hframe : Frame.ofMethod c.pool m = .ok (.ofCode body) := by rw [Frame.ofMethod, hcode]
  have hpush : Thread.pushFrame (.ofCode body) (.ofMaxDepth Thread.defaultMaxDepth) =
      .ok () ⟨0, [.ofCode body], Thread.defaultMaxDepth⟩ := rfl
  simp only [runClass, Log.afterDecoding, hsource, hboth, hmain, Member.runLogging, hframe, hpush]

theorem ofMethod_of_no_code (pool : ConstantPool) {m : Member} (h : m.code? = none) :
    ∃ method, Frame.ofMethod pool m = .error (.missingCode method) := by
  rw [Frame.ofMethod, h]
  cases m.name pool with
  | ok method => exact ⟨method, rfl⟩
  | error e => exact ⟨_, rfl⟩

/-- Where there is nothing to run, the class file has been reported on and no more. -/
theorem runClass_of_no_thread (h : ∀ t, ¬ MainThread source name t) :
    ∃ e : LaunchError, e.BeforeRun ∧
      ∀ log : Log, runClass source name log = (.error e, log.afterDecoding source name) := by
  cases hsource : source name with
  | none => exact ⟨.classNotFound name, trivial, fun log => by simp only [runClass, Log.afterDecoding, hsource]⟩
  | some bytes =>
    rcases hboth : ClassFile.parseWithEvents bytes with ⟨parsed, events⟩
    have hparse : ClassFile.parse bytes = parsed := by rw [ClassFile.parse, hboth]
    cases parsed with
    | error e => exact ⟨.decode e, trivial, fun log => by simp only [runClass, Log.afterDecoding, hsource, hboth]⟩
    | ok c =>
      rcases hmain : c.mainMethod? with e | _ | m
      · exact ⟨.decode e, trivial, fun log => by simp only [runClass, Log.afterDecoding, hsource, hboth, hmain]⟩
      · refine ⟨.mainMethodNotFound name, trivial, fun log => ?_⟩
        simp only [runClass, Log.afterDecoding, hsource, hboth, hmain]
      · cases hcode : m.code? with
        | some body => exact absurd ⟨bytes, c, m, body, hsource, hparse, hmain, hcode, rfl⟩ (h _)
        | none =>
          obtain ⟨method, hframe⟩ := ofMethod_of_no_code c.pool hcode
          refine ⟨.runtime (.missingCode method), trivial, fun log => ?_⟩
          simp only [runClass, Log.afterDecoding, hsource, hboth, hmain, Member.runLogging, hframe]
          rfl

end RunClass

/-! ### The whole log -/

/-- The log of a launch of the class with this internal name, in which these steps were reported and which came to this
result. -/
def launchReports (source : ClassSource) (name : String) (steps : List Event) (result : Except LaunchError Nat) :
    List Event :=
  .starting name :: (decodingReports source name ++ steps ++ [.outcome name result])

theorem toList_internalForm (name : String) :
    (internalForm name).toList = name.toList.map fun c => if c = '.' then '/' else c := String.toList_map

section Launch

variable {source : ClassSource} {mainClass : String}

theorem launchLogging_of_runClass {steps : List Event}
    (h : ∀ events, runClass source (internalForm mainClass) (.recording events) = (launch source mainClass,
      .recording (events ++ (decodingReports source (internalForm mainClass)).toArray ++ steps.toArray))) :
    launchLogging (.recording #[]) source mainClass = (launch source mainClass,
      .recording (launchReports source (internalForm mainClass) steps (launch source mainClass)).toArray) := by
  have hstart : (Log.recording #[]).record (.starting (internalForm mainClass)) =
      .recording #[.starting (internalForm mainClass)] := rfl
  simp only [launchLogging, hstart, h, launchReports]
  cases launch source mainClass <;> simp [Log.record, Event.outcome]

theorem launch_of_thread {t : Thread} (h : MainThread source (internalForm mainClass) t) :
    launch source mainClass = t.run.1.mapError .runtime := by
  rw [launch_eq_runClass, runClass_of_thread h, Thread.runLogging_result t _ .silent]
  rfl

theorem launchLogging_of_thread {t : Thread} (h : MainThread source (internalForm mainClass) t) :
    launchLogging (.recording #[]) source mainClass = (launch source mainClass,
      .recording (launchReports source (internalForm mainClass) t.reports (launch source mainClass)).toArray) := by
  refine launchLogging_of_runClass fun events => ?_
  rw [runClass_of_thread h, launch_of_thread h, afterDecoding_recording, Thread.runLogging_recording,
    Thread.runLogging_result t _ .silent]
  rfl

theorem launch_of_no_thread (h : ∀ t, ¬ MainThread source (internalForm mainClass) t) :
    (∃ e, launch source mainClass = .error e ∧ e.BeforeRun) ∧
      launchLogging (.recording #[]) source mainClass = (launch source mainClass,
        .recording (launchReports source (internalForm mainClass) [] (launch source mainClass)).toArray) := by
  obtain ⟨e, hbefore, hrun⟩ := runClass_of_no_thread h
  have hlaunch : launch source mainClass = .error e := by rw [launch_eq_runClass, hrun]
  refine ⟨⟨e, hlaunch, hbefore⟩, launchLogging_of_runClass fun events => ?_⟩
  rw [hrun, hlaunch, afterDecoding_recording, Array.append_empty]

end Launch

theorem mapError_runtime_eq_ok {result : Except RuntimeError Nat} {n : Nat} :
    result.mapError LaunchError.runtime = .ok n ↔ result = .ok n := by
  cases result <;> simp [Except.mapError]

theorem mapError_runtime_eq_error {result : Except RuntimeError Nat} {e : LaunchError} :
    result.mapError .runtime = .error e ↔ ∃ e', result = .error e' ∧ e = .runtime e' := by
  cases result with
  | ok n => simp [Except.mapError]
  | error e' => simp [Except.mapError, eq_comm]

/-- An error of an instruction is none of those before a run. -/
theorem not_beforeRun {e : RuntimeError} (h : e.IsUndecodable ∨ ∃ pc, e.RaisedAt pc) :
    ¬ (LaunchError.runtime e).BeforeRun := by
  cases e <;> simp_all [RuntimeError.IsUndecodable, RuntimeError.RaisedAt, LaunchError.BeforeRun]

/-- **The log of a launch tells the truth about the run.**  It begins with the internal name, in which every dot has
become a slash, goes on with what was reported while the class was decoded, then has one report for each instruction
that was decoded, and ends with the outcome.  Each of those reports shows the active frame as the steps before it left
it. -/
theorem launch_log_truthful (source : ClassSource) (mainClass : String) :
    ∃ (name : String) (steps : List Event),
      (name.toList = mainClass.toList.map fun c => if c = '.' then '/' else c) ∧
      launchLogging (.recording #[]) source mainClass =
        (launch source mainClass, .recording (launchReports source name steps (launch source mainClass)).toArray) ∧
      (∀ t, MainThread source name t →
        launch source mainClass = t.run.1.mapError .runtime ∧ ∀ i report, steps[i]? = some report ↔ t.DueAt i report) ∧
      ((∀ t, ¬ MainThread source name t) → steps = [] ∧ ∃ e, launch source mainClass = .error e ∧ e.BeforeRun) ∧
      (∀ n, launch source mainClass = .ok n → steps.length = n) ∧
      (∀ e pc, launch source mainClass = .error (.runtime e) → e.RaisedAt pc →
        ∃ s stack locals, steps.getLast? = some (.step s stack locals) ∧ s.pc = pc) ∧
      (∀ e, launch source mainClass = .error (.runtime e) → e.IsUndecodable →
        ∃ t t', MainThread source name t ∧ t.after steps.length = .ok t') ∧
      (∀ e, launch source mainClass = .error e → e.BeforeRun → steps = []) := by
  refine ⟨internalForm mainClass, ?_⟩
  by_cases hthread : ∃ t, MainThread source (internalForm mainClass) t
  · obtain ⟨t, ht⟩ := hthread
    have hlaunch := launch_of_thread ht
    have hfailed : ∀ {e}, launch source mainClass = .error e → ∃ e', t.run.1 = .error e' ∧ e = .runtime e' := fun he =>
      mapError_runtime_eq_error.1 (hlaunch.symm.trans he)
    refine ⟨t.reports, toList_internalForm mainClass, launchLogging_of_thread ht, ?_, fun hnone => absurd ht (hnone t),
      ?_, ?_, ?_, ?_⟩
    · intro u hu
      obtain rfl := ht.unique hu
      exact ⟨hlaunch, t.reports_getElem?⟩
    · intro n hn
      exact Thread.length_reports_of_ok (mapError_runtime_eq_ok.1 (hlaunch.symm.trans hn))
    · intro e pc he hraised
      obtain ⟨e', hrun, hsame⟩ := hfailed he
      cases hsame
      rcases Thread.reports_of_run_eq_error hrun with ⟨hundecodable, -⟩ | ⟨s, stack, locals, hlast, hs⟩
      · exact absurd hundecodable hraised.not_undecodable
      · exact ⟨s, stack, locals, hlast, hs.pc_eq hraised⟩
    · intro e he hundecodable
      obtain ⟨e', hrun, hsame⟩ := hfailed he
      cases hsame
      rcases Thread.reports_of_run_eq_error hrun with ⟨-, t', hafter⟩ | ⟨s, stack, locals, -, hs⟩
      · exact ⟨t, t', ht, hafter⟩
      · exact absurd hundecodable hs.not_undecodable
    · intro e he hbefore
      obtain ⟨e', hrun, rfl⟩ := hfailed he
      rcases Thread.reports_of_run_eq_error hrun with ⟨hundecodable, -⟩ | ⟨s, stack, locals, -, hs⟩
      · exact absurd hbefore (not_beforeRun (.inl hundecodable))
      · exact absurd hbefore (not_beforeRun (.inr ⟨s.pc, hs⟩))
  · have hnone : ∀ t, ¬ MainThread source (internalForm mainClass) t := fun t ht => hthread ⟨t, ht⟩
    obtain ⟨⟨e, hlaunch, hbefore⟩, hlog⟩ := launch_of_no_thread hnone
    refine ⟨[], toList_internalForm mainClass, hlog, fun t ht => absurd ht (hnone t),
      fun _ => ⟨rfl, e, hlaunch, hbefore⟩, ?_, ?_, ?_, fun _ _ _ => rfl⟩
    · intro n hn
      cases hlaunch.symm.trans hn
    · intro e' pc he' hraised
      cases hlaunch.symm.trans he'
      exact absurd hbefore (not_beforeRun (.inr ⟨pc, hraised⟩))
    · intro e' he' hundecodable
      cases hlaunch.symm.trans he'
      exact absurd hbefore (not_beforeRun (.inl hundecodable))

/-- The attributes of a main method with the code `iconst_1`, `pop`, `pop`. -/
def poppingAttributes : Bytes := [0, 1, 0, 3, 0, 0, 0, 15, 0, 1, 0, 0, 0, 0, 0, 3, 0x04, 0x57, 0x57, 0, 0, 0, 0]

/-- A source with one class, by its internal name; its main method has these attributes. -/
def plainSource (attributes : Bytes) : ClassSource := fun name =>
  if name = "a/Plain" then some (plainFile attributes) else none

/-- Three instructions are executed and reported if the third is `return`; the third is reported and not executed if it
pops from an empty stack.  The class is found and reported by its internal name. -/
theorem plainLaunch_logs :
    (launch (plainSource plainAttributes) "a.Plain" = .ok 3 ∧ ∃ steps : List Event, steps.length = 3 ∧
      (launchLogging (.recording #[]) (plainSource plainAttributes) "a.Plain").2 =
        .recording (launchReports (plainSource plainAttributes) "a/Plain" steps (.ok 3)).toArray) ∧
    (launch (plainSource poppingAttributes) "a.Plain" = .error (.runtime (.stackUnderflow 2)) ∧ ∃ steps : List Event,
      (∃ s stack locals, steps.getLast? = some (.step s stack locals) ∧ s.pc = 2) ∧
      (launchLogging (.recording #[]) (plainSource poppingAttributes) "a.Plain").2 =
        .recording (launchReports (plainSource poppingAttributes) "a/Plain" steps
          (.error (.runtime (.stackUnderflow 2)))).toArray) := by
  have hreturns : launch (plainSource plainAttributes) "a.Plain" = .ok 3 := by decide +kernel
  have hpops : launch (plainSource poppingAttributes) "a.Plain" = .error (.runtime (.stackUnderflow 2)) := by
    decide +kernel
  have hslash : ("a.Plain".toList.map fun c => if c = '.' then '/' else c) = "a/Plain".toList := by decide +kernel
  obtain ⟨name, steps, hname, hlog, -, -, hlength, -⟩ := launch_log_truthful (plainSource plainAttributes) "a.Plain"
  obtain ⟨name', steps', hname', hlog', -, -, -, hlast, -⟩ :=
    launch_log_truthful (plainSource poppingAttributes) "a.Plain"
  obtain rfl := String.toList_inj.1 (hname.trans hslash)
  obtain rfl := String.toList_inj.1 (hname'.trans hslash)
  refine ⟨⟨hreturns, steps, hlength 3 hreturns, ?_⟩, hpops, steps', hlast _ 2 hpops rfl, ?_⟩
  · rw [hlog, hreturns]
  · rw [hlog', hpops]

end Jvm
