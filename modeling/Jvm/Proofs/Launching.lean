import Jvm.Launch.Basic
import Jvm.Proofs.FrameStack
import Jvm.Proofs.Strings
/-!
# A launch runs the main method

What a launch comes to is settled by the code of the first main method: its size of stack, its number of local variables
and its instructions.  `launch_runs_main` says so for every class that has such a method, whatever else is in its file.
-/
namespace Jvm

/-! ## The first main method -/

namespace Member

/-- The first `Code` attribute of the method holds this body. -/
def FirstCode (m : Member) (body : Code) : Prop :=
  ∃ before after, m.attributes = before ++ .code body :: after ∧ ∀ body', .code body' ∉ before

theorem code?_of_not_mem {attributes : List Attribute} (h : ∀ body, .code body ∉ attributes) :
    attributes.findSome? Attribute.code? = none := by
  rw [List.findSome?_eq_none_iff]
  intro a ha
  cases a with
  | skipped name length => rfl
  | code body => exact absurd ha (h body)

theorem FirstCode.code?_eq {m : Member} {body : Code} (h : m.FirstCode body) : m.code? = some body := by
  obtain ⟨before, after, hattributes, hbefore⟩ := h
  rw [code?, hattributes, List.findSome?_append, code?_of_not_mem hbefore]
  rfl

variable {pool : ConstantPool} {m : Member} {name descriptor : String}

theorem hasSignature_of_resolves (hname : m.name pool = .ok name) (hdescriptor : m.descriptor pool = .ok descriptor)
    (signature : Signature) : m.hasSignature pool signature = .ok (decide (⟨name, descriptor⟩ = signature)) := by
  simp only [hasSignature, Member.signature, hname, hdescriptor, bind, Except.bind, pure, Except.pure]

end Member

namespace ClassFile

/-- `m` is the first method of the class that is named `main` and takes an array of strings, and all methods before it
have names and descriptors that resolve. -/
def BeginsWith (c : ClassFile) (m : Member) : Prop :=
  ∃ before after, c.methods = before ++ m :: after ∧
    m.name c.pool = .ok "main" ∧ m.descriptor c.pool = .ok "([Ljava/lang/String;)V" ∧
    ∀ b ∈ before, ∃ name descriptor, b.name c.pool = .ok name ∧ b.descriptor c.pool = .ok descriptor ∧
      ¬ (name = "main" ∧ descriptor = "([Ljava/lang/String;)V")

/-- The search passes over methods with another signature. -/
theorem positionFrom_append {pool : ConstantPool} {signature : Signature} {rest : List Member} :
    ∀ {before : List Member} {start : Nat}, (∀ b ∈ before, b.hasSignature pool signature = .ok false) →
      positionFrom pool signature start (before ++ rest) = positionFrom pool signature (start + before.length) rest
  | [], _, _ => rfl
  | b :: before, start, h => by
    rw [List.cons_append, positionFrom, h b List.mem_cons_self]
    simp only
    rw [positionFrom_append fun b' hb' => h b' (List.mem_cons_of_mem b hb'), List.length_cons]
    congr 1
    omega

theorem BeginsWith.mainMethod?_eq {c : ClassFile} {m : Member} (h : c.BeginsWith m) : c.mainMethod? = .ok (some m) := by
  obtain ⟨before, after, hmethods, hname, hdescriptor, hbefore⟩ := h
  have hpassed : ∀ b ∈ before, b.hasSignature c.pool Member.mainSignature = .ok false := by
    intro b hb
    obtain ⟨name, descriptor, hn, hd, hother⟩ := hbefore b hb
    rw [Member.hasSignature_of_resolves hn hd]
    simpa [Member.mainSignature, Member.mainName, Member.mainDescriptor] using hother
  have hfound : m.hasSignature c.pool Member.mainSignature = .ok true := by
    rw [Member.hasSignature_of_resolves hname hdescriptor]
    rfl
  have hposition : c.methodPosition? Member.mainName Member.mainDescriptor = .ok (some before.length) := by
    show positionFrom c.pool Member.mainSignature 0 c.methods = _
    rw [hmethods, positionFrom_append hpassed, positionFrom, hfound, Nat.zero_add]
  have hmethod : c.methods[before.length]? = some m := by
    rw [hmethods, List.getElem?_append_right (Nat.le_refl _), Nat.sub_self]
    rfl
  rw [mainMethod?, findMethod?, hposition]
  exact congrArg (fun found => Except.ok found) hmethod

end ClassFile

/-! ## Launches -/

theorem Member.run_of_code {m : Member} {body : Code} (pool : ConstantPool) (hcode : m.code? = some body) {t : Thread}
    (ht : t.frames = [.ofCode body]) : m.run pool = t.run.1 := by
  have hframe : Frame.ofMethod pool m = .ok (.ofCode body) := by rw [Frame.ofMethod, hcode]
  have hpush : Thread.pushFrame (.ofCode body) (.ofMaxDepth Thread.defaultMaxDepth) =
      .ok () ⟨0, [.ofCode body], Thread.defaultMaxDepth⟩ := rfl
  rw [Member.run, runLogging, hframe]
  simp only [hpush]
  exact Thread.run_of_frames_eq (t := ⟨0, [.ofCode body], Thread.defaultMaxDepth⟩) ht.symm

theorem Member.run_of_missing {m : Member} {pool : ConstantPool} {name : String} (hcode : m.code? = none)
    (hname : m.name pool = .ok name) : m.run pool = .error (.missingCode name) := by
  rw [Member.run, runLogging, Frame.ofMethod, hcode, hname]

/-- Without a log, a launch is what becomes of the class. -/
theorem launch_eq_runClass (source : ClassSource) (mainClass : String) :
    launch source mainClass = (runClass source (internalForm mainClass) .silent).1 := by
  rcases hrun : runClass source (internalForm mainClass) .silent with ⟨result, log⟩
  -- a silent log records nothing
  have hstart : runClass source (internalForm mainClass) (Log.silent.record (.starting (internalForm mainClass))) =
      (result, log) :=
    hrun
  simp only [launch, launchLogging, hstart]
  cases result with
  | ok executed => rfl
  | error e => rfl

/-- A class that is found, is accepted and has a main method runs that method. -/
theorem runClass_of_main {source : ClassSource} {name : String} {bytes : Bytes} {c : ClassFile} {m : Member}
    (hsource : source name = some bytes) (hparse : ClassFile.parse bytes = .ok c)
    (hmain : c.mainMethod? = .ok (some m)) :
    (runClass source name .silent).1 = (m.run c.pool).mapError .runtime := by
  rcases hboth : ClassFile.parseWithEvents bytes with ⟨parsed, events⟩
  obtain rfl : parsed = .ok c := by rw [← hparse, ClassFile.parse, hboth]
  simp only [runClass, hsource, hboth, hmain]
  rfl

/-- Asked for the class of this name, the source gives a class file whose first main method is `m`. -/
def Starts (source : ClassSource) (mainClass : String) (m : Member) : Prop :=
  ∃ bytes c, source (internalForm mainClass) = some bytes ∧ ClassFile.parse bytes = .ok c ∧ c.BeginsWith m

theorem Starts.launch_eq {source : ClassSource} {mainClass : String} {m : Member} (h : Starts source mainClass m) :
    ∃ pool, m.name pool = .ok "main" ∧ launch source mainClass = (m.run pool).mapError .runtime := by
  obtain ⟨bytes, c, hsource, hparse, hmain⟩ := h
  refine ⟨c.pool, ?_, ?_⟩
  · obtain ⟨before, after, -, hname, -⟩ := hmain
    exact hname
  · rw [launch_eq_runClass]
    exact runClass_of_main hsource hparse hmain.mainMethod?_eq

/-- **A launch runs exactly the code of the first main method.**  If the method has a `Code` attribute, the launch has
the result of any thread that holds nothing but a fresh frame of the first such body; if it has none, that is the error.
So two launches in which these bodies have the same sizes and the same code have the same result, whatever else is in
the two class files. -/
theorem launch_runs_main (source : ClassSource) (mainClass : String) (m : Member) (h : Starts source mainClass m) :
    (∀ body, m.FirstCode body → ∀ t : Thread, t.frames = [.ofCode body] →
      launch source mainClass = t.run.1.mapError .runtime) ∧
    ((∀ body, .code body ∉ m.attributes) → launch source mainClass = .error (.runtime (.missingCode "main"))) ∧
    (∀ source' mainClass' m' body body', Starts source' mainClass' m' → m.FirstCode body → m'.FirstCode body' →
      body.maxStack = body'.maxStack → body.maxLocals = body'.maxLocals → body.code = body'.code →
      launch source mainClass = launch source' mainClass') := by
  obtain ⟨pool, hname, hlaunch⟩ := h.launch_eq
  refine ⟨fun body hbody t ht => ?_, fun hnone => ?_, fun source' mainClass' m' body body' h' hbody hbody' hs hl hc =>
    ?_⟩
  · rw [hlaunch, m.run_of_code pool hbody.code?_eq ht]
  · rw [hlaunch, Member.run_of_missing (Member.code?_of_not_mem hnone) hname]
    rfl
  · obtain ⟨pool', -, hlaunch'⟩ := h'.launch_eq
    have hframe : Frame.ofCode body' = Frame.ofCode body := by rw [Frame.ofCode, Frame.ofCode, hs, hl, hc]
    rw [hlaunch, hlaunch', m.run_of_code pool hbody.code?_eq (t := ⟨0, [.ofCode body], 1⟩) rfl,
      m'.run_of_code pool' hbody'.code?_eq (t := ⟨0, [.ofCode body], 1⟩) (by rw [hframe])]

/-- A class file with no more than a main method needs; its main method has these attributes. -/
def plainFile (attributes : Bytes) : Bytes :=
  be4 0xCAFEBABE ++ [0, 0, 0, 52, 0, 4] ++ Constant.toBytes (.utf8 (.ofString "main")) ++
    Constant.toBytes (.utf8 (.ofString "([Ljava/lang/String;)V")) ++ Constant.toBytes (.utf8 (.ofString "Code")) ++
    [0, 0x21, 0, 0, 0, 0, 0, 0, 0, 0, 0, 1, 0, 9, 0, 1, 0, 2] ++ attributes ++ [0, 0]

def plainMain (attributes : List Attribute) : Member := ⟨⟨9⟩, 1, 2, attributes⟩

def plainClass (attributes : List Attribute) : ClassFile :=
  ⟨0, 52, ⟨4, #[none, some (.utf8 (.ofString "main")), some (.utf8 (.ofString "([Ljava/lang/String;)V")),
    some (.utf8 (.ofString "Code"))]⟩, ⟨0x21⟩, 0, 0, [], [], [plainMain attributes], []⟩

/-- A class file with a number in its pool, a method in front of the main method, an attribute in front of its code, a
handler and an attribute in its code, and another version. -/
def richFile : Bytes :=
  be4 0xCAFEBABE ++ [0, 3, 0, 45, 0, 7] ++ Constant.toBytes (.long (-1)) ++ Constant.toBytes (.utf8 (.ofString "x")) ++
    Constant.toBytes (.utf8 (.ofString "Code")) ++ Constant.toBytes (.utf8 (.ofString "([Ljava/lang/String;)V")) ++
    Constant.toBytes (.utf8 (.ofString "main")) ++ [0, 0, 0, 0, 0, 0, 0, 0, 0, 0, 0, 2, 0, 0, 0, 3, 0, 5, 0, 0] ++
    [0, 9, 0, 6, 0, 5, 0, 2, 0, 3, 0, 0, 0, 2, 0xFF, 0xFF] ++
    [0, 4, 0, 0, 0, 30, 0, 1, 0, 0, 0, 0, 0, 3, 0x04, 0x57, 0xB1, 0, 1, 0, 0, 0, 1, 0, 2, 0, 0] ++
    [0, 1, 0, 3, 0, 0, 0, 1, 0xFF] ++ [0, 0]

def richMain : Member :=
  ⟨⟨9⟩, 6, 5, [.skipped "x" 2, .code ⟨1, 0, #[0x04, 0x57, 0xB1], [⟨0, 1, 2, 0⟩]⟩]⟩

def richClass : ClassFile :=
  ⟨3, 45, ⟨7, #[none, some (.long (-1)), none, some (.utf8 (.ofString "x")), some (.utf8 (.ofString "Code")),
    some (.utf8 (.ofString "([Ljava/lang/String;)V")), some (.utf8 (.ofString "main"))]⟩, ⟨0⟩, 0, 0, [], [],
    [⟨⟨0⟩, 3, 5, []⟩, richMain], []⟩

/-- The attributes of a main method with the code of `richMain` and nothing else. -/
def plainAttributes : Bytes := [0, 1, 0, 3, 0, 0, 0, 15, 0, 1, 0, 0, 0, 0, 0, 3, 0x04, 0x57, 0xB1, 0, 0, 0, 0]

/-- The two class files have one result.  Without code there is nothing to run. -/
theorem launch_rich_and_plain :
    launch (fun _ => some richFile) "a.Rich" = .ok 3 ∧
      launch (fun _ => some richFile) "a.Rich" = launch (fun _ => some (plainFile plainAttributes)) "Plain" ∧
      launch (fun _ => some (plainFile [0, 0])) "Plain" = .error (.runtime (.missingCode "main")) := by
  have hrich : Starts (fun _ => some richFile) "a.Rich" richMain := by
    refine ⟨richFile, richClass, rfl, by decide +kernel, [⟨⟨0⟩, 3, 5, []⟩], [], rfl, ?_, ?_, ?_⟩
    · exact ConstantPool.utf8_eq_ok.2 rfl
    · exact ConstantPool.utf8_eq_ok.2 rfl
    · intro b hb
      obtain rfl := List.mem_singleton.1 hb
      exact ⟨"x", _, ConstantPool.utf8_eq_ok.2 rfl, ConstantPool.utf8_eq_ok.2 rfl, by decide⟩
  have hplain : ∀ attributes bytes, ClassFile.parse (plainFile bytes) = .ok (plainClass attributes) →
      Starts (fun _ => some (plainFile bytes)) "Plain" (plainMain attributes) := fun attributes bytes hparse =>
    ⟨_, _, rfl, hparse, [], [], rfl, ConstantPool.utf8_eq_ok.2 rfl, ConstantPool.utf8_eq_ok.2 rfl,
      fun b hb => nomatch hb⟩
  have hfirst : richMain.FirstCode ⟨1, 0, #[0x04, 0x57, 0xB1], [⟨0, 1, 2, 0⟩]⟩ := ⟨[.skipped "x" 2], [], rfl, by simp⟩
  have hsecond : (plainMain [.code ⟨1, 0, #[0x04, 0x57, 0xB1], []⟩]).FirstCode ⟨1, 0, #[0x04, 0x57, 0xB1], []⟩ :=
    ⟨[], [], rfl, by simp⟩
  obtain ⟨hcode, -, hsame⟩ := launch_runs_main _ _ _ hrich
  obtain ⟨-, hmissing, -⟩ := launch_runs_main _ _ _ (hplain [] [0, 0] (by decide +kernel))
  refine ⟨?_, ?_, hmissing fun body => List.not_mem_nil⟩
  · rw [hcode _ hfirst ⟨0, [.ofCode ⟨1, 0, #[0x04, 0x57, 0xB1], [⟨0, 1, 2, 0⟩]⟩], 1⟩ rfl]
    rfl
  · exact hsame _ _ _ _ _ (hplain _ plainAttributes (by decide +kernel)) hfirst hsecond rfl rfl rfl

end Jvm
