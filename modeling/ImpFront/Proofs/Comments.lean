import Mathlib
import ImpFront.Proofs.Chart
import ImpFront.Trace

/-! Comments stand beside the code and never change it. A target that ignores comments answers every
other operation as a recorder does that keeps them, because a recorder looks at no comment: labels,
register numbers and whether a block is terminated are the same with and without them. So a source
compiles into both with the same diagnostics, and the modules differ by the comments only. -/

namespace ImpFront

def BasicBlock.withoutComments (b : BasicBlock) : BasicBlock :=
  { b with code := b.code.filter fun i => !i.isComment }

def Func.withoutComments (F : Func) : Func :=
  { F with blocks := F.blocks.map BasicBlock.withoutComments }

def Module.withoutComments (m : Module) : Module := ⟨m.functions.map Func.withoutComments⟩

def Recorder.withoutComments (r : Recorder) : Recorder :=
  { r with functions := r.functions.map (Option.map Func.withoutComments) }

def Op.isComment {α : Type} : Op α → Bool
  | .comment _ => true
  | _ => false

/-- Passes every operation except comments on to another target. -/
structure Silent (σ : Type) where
  target : σ

namespace Silent

variable {σ : Type} [Emitter σ]

def perform {α : Type} (op : Op α) : EStateM NoInsertionBlock (Silent σ) α := fun t =>
  match op with
  | .comment _ => .ok () t
  | op =>
    match Emitter.perform op t.target with
    | .ok a s => .ok a ⟨s⟩
    | .error e s => .error e ⟨s⟩

instance : Emitter (Silent σ) := ⟨perform⟩

end Silent

namespace BasicBlock

@[simp] theorem isTerminated_withoutComments (b : BasicBlock) :
    b.withoutComments.isTerminated = b.isTerminated := by
  simp [isTerminated, withoutComments]

end BasicBlock

namespace Func

variable (F : Func) (b : BlockId)

theorem withoutComments_append {i : Instr} (hi : i.isComment = false) :
    (F.append b i).withoutComments = F.withoutComments.append b i := by
  simp only [append, withoutComments, mk.injEq, true_and, and_true]
  apply map_modify
  intro B
  simp [BasicBlock.withoutComments, hi]

theorem withoutComments_append_comment (text : String) :
    (F.append b (.comment text)).withoutComments = F.withoutComments := by
  have hblock :
      ∀ B : BasicBlock, BasicBlock.withoutComments { B with code := B.code ++ [.comment text] } =
      id B.withoutComments := by
    intro B
    simp [BasicBlock.withoutComments, Instr.isComment]
  simp only [append, withoutComments, map_modify hblock, List.modify_id]

theorem withoutComments_addBlock (hint : String) :
    (F.addBlock hint).withoutComments = F.withoutComments.addBlock hint := by
  simp [addBlock, withoutComments, BasicBlock.withoutComments, Function.comp_def]

end Func

namespace Recorder

variable (r : Recorder)

@[simp] theorem position_withoutComments : r.withoutComments.position = r.position := rfl

@[simp] theorem function?_withoutComments (f : FunctionId) :
    r.withoutComments.function? f = (r.function? f).map Func.withoutComments := by
  rw [function?, function?, withoutComments, List.getElem?_map]
  cases r.functions[f.index]? <;> rfl

@[simp] theorem block?_withoutComments (b : BlockRef) :
    r.withoutComments.block? b = (r.block? b).map BasicBlock.withoutComments := by
  rw [block?, block?, function?_withoutComments]
  cases r.function? b.function with
  | none => rfl
  | some F => exact List.getElem?_map

@[simp] theorem label_withoutComments (b : BlockRef) : r.withoutComments.label b = r.label b := by
  rw [label, label, block?_withoutComments, Option.map_map]
  rfl

@[simp] theorem isTerminated_withoutComments : r.withoutComments.isTerminated = r.isTerminated := by
  rw [isTerminated, isTerminated, position_withoutComments]
  cases r.position with
  | none => rfl
  | some b => simp [Option.any_map]

@[simp] theorem nextReg_withoutComments (b : BlockRef) :
    r.withoutComments.nextReg b = r.nextReg b := by
  rw [nextReg, nextReg, function?_withoutComments, Option.map_map]
  rfl

@[simp] theorem find?_withoutComments (name : String) :
    r.withoutComments.find? name = r.find? name := by
  rw [find?, find?, withoutComments, List.findIdx?_map]
  congr 2
  funext slot
  cases slot <;> rfl

theorem toModule_withoutComments : r.withoutComments.toModule = r.toModule.withoutComments := by
  simp [toModule, Module.withoutComments, withoutComments, List.filterMap_map, List.map_filterMap]

theorem withoutComments_modifyFunction {g g' : Func → Func}
    (h : ∀ F, (g F).withoutComments = g' F.withoutComments) (f : FunctionId) :
    (r.modifyFunction f g).withoutComments = r.withoutComments.modifyFunction f g' := by
  simp only [modifyFunction, withoutComments, mk.injEq, and_true]
  apply map_modify
  rintro (_ | F)
  · rfl
  · exact congrArg some (h F)

variable {r} {α : Type}

theorem define_withoutComments {instr : Reg → Instr} (hi : ∀ dst, (instr dst).isComment = false)
    {a : Value} {r' : Recorder} (h : define instr r = .ok a r') :
    define instr r.withoutComments = .ok a r'.withoutComments := by
  cases hp : r.position with
  | none => simp [define, hp] at h
  | some p =>
    rw [define_at hp] at h
    cases h
    rw [define_at (r := r.withoutComments) hp, nextReg_withoutComments,
      withoutComments_modifyFunction]
    intro F
    exact congrArg Func.addRegister (F.withoutComments_append p.block (hi _))

theorem push_withoutComments {i : Instr} (hi : i.isComment = false) {a : Unit} {r' : Recorder}
    (h : push i r = .ok a r') :
    push i r.withoutComments = .ok a r'.withoutComments := by
  cases hp : r.position with
  | none => simp [push, hp] at h
  | some p =>
    rw [push_at hp] at h
    cases h
    rw [push_at (r := r.withoutComments) hp, withoutComments_modifyFunction]
    intro F
    exact F.withoutComments_append p.block hi

/-- A recorder never looks at the comments that it holds. -/
theorem perform_withoutComments (op : Op α) (hop : op.isComment = false) {a : α} {r' : Recorder}
    (h : perform op r = .ok a r') : perform op r.withoutComments = .ok a r'.withoutComments := by
  cases op with
  | constInt | constDouble | functionParam | positionAtEnd => cases h; rfl
  | isTerminated =>
    cases h
    simp only [perform, answer, isTerminated_withoutComments]
  | getFunction name =>
    cases h
    simp only [perform, answer, find?_withoutComments]
  | declareFunction name signature =>
    cases h
    simp [perform, answer, declare, withoutComments, Func.withoutComments]
  | appendBlock f hint =>
    cases hF : r.function? f with
    | none =>
      simp only [perform, answer, appendBlock, hF] at h
      cases h
      simp [perform, answer, appendBlock, hF]
    | some F =>
      rw [perform_appendBlock hF] at h
      cases h
      have hF' : r.withoutComments.function? f = some F.withoutComments := by simp [hF]
      rw [perform_appendBlock hF',
        withoutComments_modifyFunction _ fun F => F.withoutComments_addBlock hint]
      simp [Func.withoutComments]
  | load | arith | compare | cast | stackAlloc | heapAlloc =>
    simp only [perform] at h ⊢
    exact define_withoutComments (fun _ => rfl) h
  | call f args =>
    have hname : ((r.withoutComments.function? f).map Func.name).getD "" =
        ((r.function? f).map Func.name).getD "" := by
      rw [function?_withoutComments, Option.map_map]
      rfl
    simp only [perform, hname] at h ⊢
    exact define_withoutComments (fun _ => rfl) h
  | store | heapFree | ret | unreachable =>
    simp only [perform] at h ⊢
    exact push_withoutComments rfl h
  | branch | condBranch =>
    simp only [perform, label_withoutComments] at h ⊢
    exact push_withoutComments rfl h
  | discardFunction f =>
    cases h
    simp [perform, change, discard, leave, withoutComments]
  | clearBody f =>
    cases h
    have hclear : ∀ F : Func, Func.withoutComments { F with blocks := [], registers := 0 } =
        { F.withoutComments with blocks := [], registers := 0 } := fun _ => rfl
    simp only [perform, change, clearBody]
    rw [← withoutComments_modifyFunction r hclear f]
    rfl
  | comment => cases hop

theorem withoutComments_comment (text : String) {a : Unit} {r' : Recorder}
    (h : perform (.comment text) r = .ok a r') :
    r'.withoutComments = r.withoutComments := by
  cases hp : r.position with
  | none =>
    simp only [perform, hp, Option.isSome_none, Bool.false_eq_true, if_false] at h
    cases h
    rfl
  | some p =>
    rw [comment_at hp, push_at hp] at h
    cases h
    have hid : (r.modifyFunction p.function (Func.append p.block (.comment text))).withoutComments =
        r.withoutComments.modifyFunction p.function id :=
      r.withoutComments_modifyFunction (fun F => F.withoutComments_append_comment p.block text)
        p.function
    rw [hid, modifyFunction, Option.map_id, List.modify_id]

end Recorder

/-- Targets that pass on operations to a recorder of their own, all but comments. `V t r` says that
`t` keeps `r`. -/
structure Emitter.Forwards {τ : Type} [Emitter τ] (V : τ → Recorder → Prop) : Prop where
  comment :
    ∀ {t r} (text : String), V t r → ∃ t', Emitter.perform (.comment text) t = .ok () t' ∧ V t' r
  pass : ∀ {t r r'} {α : Type} {a : α} (op : Op α),
    op.isComment = false → V t r → Recorder.perform op r = .ok a r' →
    ∃ t', Emitter.perform op t = .ok a t' ∧ V t' r'

theorem Silent.forwards : Emitter.Forwards fun (t : Silent Recorder) r => t.target = r where
  comment text h := ⟨_, rfl, h⟩
  pass op hop h hr := by
    subst h
    cases op with
    | comment => cases hop
    | _ => exact ⟨_, by simp only [Emitter.perform, Silent.perform, hr], rfl⟩

theorem Traced.forwards :
    Emitter.Forwards fun (t : Traced) r => t.recorder = r ∧ t.terminated = none where
  comment text h := ⟨_, rfl, h⟩
  pass {t _ r' _ a} op hop h hr := by
    obtain ⟨rfl, hnone⟩ := h
    cases op with
    | comment => cases hop
    | isTerminated =>
      cases hr
      exact ⟨t, by simp only [Emitter.perform, Traced.perform, hnone, Option.getD_none], rfl, hnone⟩
    | _ =>
      exact ⟨⟨r', t.terminated, _⟩, by simp only [Emitter.perform, Traced.perform, hr]; rfl, rfl,
        hnone⟩

/-- A recorder that keeps comments, and a target that ignores them and keeps the rest. -/
theorem Emitter.Forwards.related {τ : Type} [Emitter τ] {V : τ → Recorder → Prop}
    (hV : Emitter.Forwards V) :
    Emitter.Related fun w (r : Recorder) t => V t r.withoutComments ∧ r.Holds w where
  forget h := ⟨h.1, Recorder.holds_nothing _⟩
  enter hf h := ⟨h.1, h.2.enter hf⟩
  perform op hop h := by
    obtain ⟨hkept, hholds⟩ := h
    obtain ⟨a, r', hr, hholds'⟩ := hholds.perform op hop
    cases hcomment : op.isComment with
    | false =>
      obtain ⟨t', ht, hkept'⟩ :=
        hV.pass op hcomment hkept (Recorder.perform_withoutComments op hcomment hr)
      exact ⟨a, r', t', hr, ht, hkept', hholds'⟩
    | true =>
      cases op <;> cases hcomment
      obtain ⟨t', ht, hkept'⟩ := hV.comment _ hkept
      rw [← Recorder.withoutComments_comment _ hr] at hkept'
      exact ⟨a, r', t', hr, ht, hkept', hholds'⟩

theorem compile_forwarded {τ : Type} [Emitter τ] {V : τ → Recorder → Prop} (hV : Emitter.Forwards V)
    (source : String) {r : Recorder} {t : τ} (h : V t r.withoutComments) :
    (compile source t).1 = (compile source r).1 ∧
    V (compile source t).2 (compile source r).2.withoutComments := by
  obtain ⟨hsame, hkept, -⟩ := compile_related hV.related source ⟨h, r.holds_nothing⟩
  exact ⟨hsame.symm, hkept⟩

/-- Trace comments never change the code. A source compiles into a recorder that keeps comments and
into one that is told of none, or into a logging recorder that ignores them, with the same
diagnostics, and deleting the comments from the first module gives the others. -/
theorem compile_withoutComments (source : String) (r : Recorder) :
    let loud := compile source r
    let silent := compile source (Silent.mk r.withoutComments)
    let logged := compile source (Traced.mk r.withoutComments none [])
    (silent.1 = loud.1 ∧ silent.2.target.toModule = loud.2.toModule.withoutComments) ∧
      logged.1 = loud.1 ∧ logged.2.recorder.toModule = loud.2.toModule.withoutComments := by
  intro loud silent logged
  obtain ⟨hsilent, hkept⟩ :=
    compile_forwarded Silent.forwards source (r := r) (t := ⟨r.withoutComments⟩) rfl
  obtain ⟨hlogged, hrecorder, -⟩ :=
    compile_forwarded Traced.forwards source (r := r) (t := ⟨r.withoutComments, none, []⟩) ⟨rfl,
      rfl⟩
  rw [← Recorder.toModule_withoutComments]
  exact ⟨⟨hsilent, congrArg Recorder.toModule hkept⟩, hlogged, congrArg Recorder.toModule hrecorder⟩

example :
    (compile
      "int f(int n) \x7b return n; \x7d" Recorder.empty).2.toModule.functions.map (·.code.length) =
      [6] ∧
      (compile "int f(int n) \x7b return n; \x7d" (Silent.mk
        Recorder.empty)).2.target.toModule.functions.map
        (·.code.length) = [4] := by
  decide +kernel

end ImpFront
