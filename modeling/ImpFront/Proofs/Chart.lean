import Mathlib
import ImpFront.Proofs.ControlFlow
import ImpFront.Proofs.Parametric

/-! Branches and the blocks that they were made to. An instruction holds the labels of its targets
only. A recorder that also keeps a chart, with the blocks that lowering asked to branch to, records
the same code, and in a compiled function each label leads to the block in the chart. -/

namespace ImpFront

/-- A branch from one block to another. -/
structure Edge where
  source : BlockRef
  target : BlockRef
  deriving DecidableEq, Repr

namespace Op

/-- The blocks that an operation branches to. -/
def destinations {α : Type} : Op α → List BlockRef
  | .branch target => [target]
  | .condBranch _ yes no => [yes, no]
  | _ => []

/-- The function whose body is taken back. -/
def takenBack? {α : Type} : Op α → Option FunctionId
  | .discardFunction f | .clearBody f => some f
  | _ => none

end Op

/-- A recorder, and the branches that were asked for in the bodies that are there, the first of them
first. -/
structure Charted where
  recorder : Recorder
  edges : List Edge

namespace Charted

def empty : Charted := ⟨.empty, []⟩

def perform {α : Type} (op : Op α) : EStateM NoInsertionBlock Charted α := fun c =>
  match Recorder.perform op c.recorder with
  | .ok a r =>
    let kept := c.edges.filter fun e => op.takenBack? ≠ some e.source.function
    .ok a ⟨r, kept ++ c.recorder.position.toList.flatMap fun b => op.destinations.map (Edge.mk b)⟩
  | .error e r => .error e ⟨r, c.edges⟩

instance : Emitter Charted := ⟨perform⟩

/-- The blocks that were branched to from a block. -/
def targets (c : Charted) (b : BlockRef) : List BlockRef :=
  (c.edges.filter fun e => e.source = b).map Edge.target

end Charted

theorem map_modify {α β : Type} {f : α → β} {g : α → α} {g' : β → β} (h : ∀ a, f (g a) = g' (f a))
    (l : List α) (i : Nat) : (l.modify i g).map f = (l.map f).modify i g' := by
  induction l generalizing i with
  | nil => simp
  | cons a l ih =>
    cases i with
    | zero => simp [h]
    | succ i => simp [ih]

namespace Recorder

variable {r : Recorder} {p b : BlockRef} {i : Instr} {g : Func → Func}

theorem block?_modifyFunction (r : Recorder) (id : FunctionId) (g : Func → Func) (b : BlockRef) :
    (r.modifyFunction id g).block? b =
      if id = b.function then (r.function? b.function).bind fun F => (g F).blocks[b.block.index]?
        else r.block? b := by
  rw [block?, function?_modifyFunction]
  split
  · cases r.function? b.function <;> rfl
  · rfl

theorem isSome_function?_modifyFunction (r : Recorder) (id f : FunctionId) (g : Func → Func) :
    ((r.modifyFunction id g).function? f).isSome = (r.function? f).isSome := by
  rw [function?_modifyFunction]
  split
  · exact Option.isSome_map
  · rfl

theorem define_at (hp : r.position = some p) (instr : Reg → Instr) :
    define instr r = .ok (.reg (r.nextReg p))
      (r.modifyFunction p.function fun F =>
        (F.append p.block (instr (r.nextReg p))).addRegister) := by
  simp only [define, hp]

theorem push_at (hp : r.position = some p) (i : Instr) :
    push i r = .ok () (r.modifyFunction p.function (Func.append p.block i)) := by
  simp only [push, hp]

theorem comment_at (hp : r.position = some p) (text : String) :
    perform (.comment text) r = push (.comment text) r := by
  simp only [perform, hp, Option.isSome_some, if_true]

/-- A change of one function that appends an instruction to a block. -/
theorem block?_write (hg : ∀ F : Func, (g F).blocks = (F.append p.block i).blocks) :
    (r.modifyFunction p.function g).block? b =
      if b = p then (r.block? p).map fun B => { B with code := B.code ++ [i] } else r.block? b := by
  obtain ⟨f, ⟨j⟩⟩ := p
  obtain ⟨f', ⟨j'⟩⟩ := b
  rw [block?_modifyFunction]
  by_cases hf : f = f'
  · subst hf
    simp only [if_true, BlockRef.mk.injEq, Handle.mk.injEq, true_and, block?]
    cases r.function? f with
    | none => simp
    | some F =>
      simp only [Option.bind_some, hg, Func.append, List.getElem?_modify]
      by_cases hj : j = j'
      · subst hj
        simp
      · simp [hj, Ne.symm hj]
  · have hne : (⟨f', ⟨j'⟩⟩ : BlockRef) ≠ ⟨f, ⟨j⟩⟩ := fun he => hf (by cases he; rfl)
    simp [hf, hne]

theorem isSome_block?_write (hg : ∀ F : Func, (g F).blocks = (F.append p.block i).blocks) :
    ((r.modifyFunction p.function g).block? b).isSome = (r.block? b).isSome := by
  rw [block?_write hg]
  split
  · rename_i he
    rw [he, Option.isSome_map]
  · rfl

theorem label_write (hg : ∀ F : Func, (g F).blocks = (F.append p.block i).blocks) :
    (r.modifyFunction p.function g).label b = r.label b := by
  rw [label, label, block?_write hg]
  split
  · rename_i he
    rw [he, Option.map_map]
    rfl
  · rfl

theorem block?_addBlock {f : FunctionId} {F : Func} (hF : r.function? f = some F) (hint : String) :
    (r.modifyFunction f (Func.addBlock hint)).block? b =
      if b = ⟨f, ⟨F.blocks.length⟩⟩ then some ⟨freshLabel (F.blocks.map BasicBlock.label) hint, []⟩
        else r.block? b := by
  obtain ⟨f', ⟨j⟩⟩ := b
  rw [block?_modifyFunction]
  by_cases hf : f = f'
  · subst hf
    simp only [if_true, hF, Option.bind_some, Func.addBlock, BlockRef.mk.injEq, Handle.mk.injEq,
      true_and, block?]
    by_cases hj : j = F.blocks.length
    · subst hj
      simp
    · rw [if_neg hj]
      by_cases hlt : j < F.blocks.length
      · rw [List.getElem?_append_left hlt]
      · rw [List.getElem?_eq_none (by simp; omega), List.getElem?_eq_none (by omega)]
  · have hne : (⟨f', ⟨j⟩⟩ : BlockRef) ≠ ⟨f, ⟨F.blocks.length⟩⟩ := fun he => hf (by cases he; rfl)
    simp [hf, hne]

theorem perform_appendBlock {f : FunctionId} {F : Func} (hF : r.function? f = some F)
    (hint : String) :
    perform (.appendBlock f hint) r =
      .ok ⟨f, ⟨F.blocks.length⟩⟩ (r.modifyFunction f (Func.addBlock hint)) := by
  simp only [perform, answer, appendBlock, hF]
  rfl

theorem block?_next {f : FunctionId} {F : Func} (hF : r.function? f = some F) :
    r.block? ⟨f, ⟨F.blocks.length⟩⟩ = none := by
  simp [block?, hF]

theorem block?_addBlock_of_some {f : FunctionId} {F : Func} (hF : r.function? f = some F)
    (hint : String) {B : BasicBlock} (hB : r.block? b = some B) :
    (r.modifyFunction f (Func.addBlock hint)).block? b = some B := by
  rw [block?_addBlock hF, if_neg, hB]
  rintro rfl
  rw [block?_next hF] at hB
  cases hB

theorem function?_declare (r : Recorder) (name : String) (signature : Signature) (f : FunctionId) :
    (r.declare name signature).2.function? f =
      if f = ⟨r.functions.length⟩ then some ⟨name, signature, [], 0⟩ else r.function? f := by
  obtain ⟨i⟩ := f
  simp only [declare, function?, Handle.mk.injEq]
  split
  · rename_i he
    simp [he]
  · rename_i hne
    by_cases hlt : i < r.functions.length
    · rw [List.getElem?_append_left hlt]
    · rw [List.getElem?_eq_none (by simp; omega), List.getElem?_eq_none (by omega)]

theorem block?_declare (r : Recorder) (name : String) (signature : Signature) (b : BlockRef) :
    (r.declare name signature).2.block? b = r.block? b := by
  rw [block?, function?_declare]
  split
  · rename_i he
    have hnone : r.function? b.function = none := by
      rw [he, function?, List.getElem?_eq_none le_rfl]
      rfl
    rw [block?, hnone]
    rfl
  · rfl

theorem block?_clearBody (r : Recorder) (f : FunctionId) (b : BlockRef) :
    (r.clearBody f).block? b = if f = b.function then none else r.block? b := by
  show (r.modifyFunction f fun F => { F with blocks := [], registers := 0 }).block? b = _
  rw [block?_modifyFunction]
  split
  · cases r.function? b.function <;> rfl
  · rfl

theorem block?_discard (r : Recorder) (f : FunctionId) (b : BlockRef) :
    (r.discard f).block? b = if f = b.function then none else r.block? b := by
  obtain ⟨i⟩ := f
  obtain ⟨⟨j⟩, k⟩ := b
  simp only [discard, leave, block?, function?, Handle.mk.injEq]
  by_cases hij : i = j
  · subst hij
    rw [List.getElem?_set_self', if_pos rfl]
    cases r.functions[i]? <;> rfl
  · rw [List.getElem?_set_ne hij, if_neg hij]

/-- What is known of a recorder holds of it. -/
structure Holds (r : Recorder) (w : Known) : Prop where
  functions : ∀ f ∈ w.functions, (r.function? f).isSome
  owner : ∀ f, w.owner = some f → (r.function? f).isSome
  blocks : ∀ b ∈ w.blocks, (r.block? b).isSome ∧ w.owner = some b.function
  placed : w.placed = true → ∃ b ∈ w.blocks, r.position = some b

theorem holds_nothing (r : Recorder) : r.Holds .nothing :=
  ⟨by simp [Known.nothing], by simp [Known.nothing], by simp [Known.nothing],
    by simp [Known.nothing]⟩

namespace Holds

variable {r' : Recorder} {w : Known}

theorem enter {f : FunctionId} (h : r.Holds w) (hf : f ∈ w.functions) : r.Holds (w.enter f) where
  functions := h.functions
  owner g hg := by
    obtain rfl : f = g := Option.some.inj hg
    exact h.functions f hf
  blocks := by simp [Known.enter]
  placed := by simp [Known.enter]

theorem extend (h : r.Holds w) (hfun : ∀ f, (r.function? f).isSome → (r'.function? f).isSome)
    (hblock : ∀ b, (r.block? b).isSome → (r'.block? b).isSome) (hpos : r'.position = r.position) :
    r'.Holds w where
  functions f hf := hfun f (h.functions f hf)
  owner f hf := hfun f (h.owner f hf)
  blocks b hb := ⟨hblock b (h.blocks b hb).1, (h.blocks b hb).2⟩
  placed hw := by
    rw [hpos]
    exact h.placed hw

theorem write (h : r.Holds w) (hg : ∀ F : Func, (g F).blocks = (F.append p.block i).blocks) :
    (r.modifyFunction p.function g).Holds w :=
  h.extend (fun f hf => by rwa [isSome_function?_modifyFunction])
    (fun b hb => by rwa [isSome_block?_write hg]) rfl

theorem addBlock {f : FunctionId} {F : Func} (h : r.Holds w) (hf : w.owner = some f)
    (hF : r.function? f = some F) (hint : String) :
    (r.modifyFunction f (Func.addBlock hint)).Holds { w with
      blocks := ⟨f, ⟨F.blocks.length⟩⟩ :: w.blocks } := by
  have hblock :
      ∀ b, (r.block? b).isSome → ((r.modifyFunction f (Func.addBlock hint)).block? b).isSome := by
    intro b hb
    obtain ⟨B, hB⟩ := Option.isSome_iff_exists.1 hb
    rw [block?_addBlock_of_some hF hint hB]
    rfl
  have hholds := h.extend (fun f hf => by rwa [isSome_function?_modifyFunction]) hblock rfl
  refine ⟨hholds.functions, hholds.owner, List.forall_mem_cons.2 ⟨⟨?_, hf⟩, hholds.blocks⟩,
    fun hw => ?_⟩
  · rw [block?_addBlock hF, if_pos rfl]
    rfl
  · obtain ⟨b, hb, hpos⟩ := hholds.placed hw
    exact ⟨b, List.mem_cons_of_mem _ hb, hpos⟩

theorem declare (h : r.Holds w) (name : String) (signature : Signature) :
    (r.declare name signature).2.Holds { w with
      functions := ⟨r.functions.length⟩ :: w.functions } := by
  have hfun : ∀ f, (r.function? f).isSome → ((r.declare name signature).2.function? f).isSome := by
    intro f hf
    rw [function?_declare]
    split
    · rfl
    · exact hf
  have hholds := h.extend hfun (fun b hb => by rwa [block?_declare]) rfl
  refine ⟨List.forall_mem_cons.2 ⟨?_, hholds.functions⟩, hholds.owner, hholds.blocks, hholds.placed⟩
  rw [function?_declare, if_pos rfl]
  rfl

theorem define (h : r.Holds w) (hw : w.placed = true) (instr : Reg → Instr) :
    ∃ a r', Recorder.define instr r = .ok a r' ∧ r'.Holds w := by
  obtain ⟨p, -, hpos⟩ := h.placed hw
  exact ⟨_, _, define_at hpos instr, h.write (i := instr (r.nextReg p)) fun _ => rfl⟩

theorem push (h : r.Holds w) (hw : w.placed = true) (i : Instr) :
    ∃ a r', Recorder.push i r = .ok a r' ∧ r'.Holds w := by
  obtain ⟨p, -, hpos⟩ := h.placed hw
  exact ⟨_, _, push_at hpos i, h.write fun _ => rfl⟩

/-- An admissible operation works, and what it tells is so. -/
theorem perform {α : Type} (h : r.Holds w) (op : Op α) (hop : op.Admissible w) :
    ∃ a r', Recorder.perform op r = .ok a r' ∧ r'.Holds (op.next w a) := by
  cases op with
  | constInt | constDouble | functionParam | isTerminated => exact ⟨_, r, rfl, h⟩
  | getFunction name =>
    refine ⟨_, r, rfl, fun f hf => ?_, h.owner, h.blocks, h.placed⟩
    rcases List.mem_append.1 hf with hf | hf
    · obtain ⟨F, hF, -⟩ := Recorder.function?_of_find? (Option.mem_toList.1 hf)
      rw [hF]
      rfl
    · exact h.functions f hf
  | declareFunction name signature => exact ⟨_, _, rfl, h.declare name signature⟩
  | appendBlock f hint =>
    obtain ⟨F, hF⟩ := Option.isSome_iff_exists.1 (h.owner f hop)
    exact ⟨_, _, Recorder.perform_appendBlock hF hint, h.addBlock hop hF hint⟩
  | positionAtEnd b => exact ⟨_, _, rfl, h.functions, h.owner, h.blocks, fun _ => ⟨b, hop, rfl⟩⟩
  | load | arith | compare | cast | stackAlloc | heapAlloc =>
    simp only [Recorder.perform, Op.next]
    exact h.define hop _
  | call =>
    simp only [Recorder.perform, Op.next]
    exact h.define hop.1 _
  | store | heapFree | ret | unreachable => exact h.push hop _
  | branch | condBranch => exact h.push hop.1 _
  | comment text =>
    obtain ⟨p, -, hpos⟩ := h.placed hop
    rw [comment_at hpos]
    exact h.push hop _
  | discardFunction | clearBody => exact ⟨_, _, rfl, holds_nothing _⟩

end Holds

end Recorder

namespace Charted

/-- The chart agrees with the code: branches stay inside a function and lead to blocks that are
there, and each block has the labels of the blocks that were branched to from it. -/
structure Agrees (c : Charted) : Prop where
  edges : ∀ e ∈ c.edges, (c.recorder.block? e.source).isSome ∧ (c.recorder.block? e.target).isSome ∧
    e.target.function = e.source.function
  code : ∀ b B,
    c.recorder.block? b = some B → B.code.flatMap Instr.targets = (c.targets b).map c.recorder.label

namespace Agrees

variable {r r' : Recorder} {es : List Edge} {p : BlockRef} {g : Func → Func} {i : Instr}

theorem isSome_of_mem_targets {c : Charted} (h : c.Agrees) {b t : BlockRef} (ht : t ∈ c.targets b) :
    (c.recorder.block? t).isSome ∧ t.function = b.function := by
  obtain ⟨e, he, rfl⟩ := List.mem_map.1 ht
  obtain ⟨he, hb⟩ := List.mem_filter.1 he
  obtain ⟨-, hsome, hfun⟩ := h.edges e he
  exact ⟨hsome, hfun.trans (congrArg BlockRef.function (by simpa using hb))⟩

/-- An instruction that is appended to a block, with the blocks that it branches to. -/
theorem write (h : Agrees ⟨r, es⟩) (hg : ∀ F : Func, (g F).blocks = (F.append p.block i).blocks)
    (ds : List BlockRef)
    (hp : (r.block? p).isSome) (hds : ∀ d ∈ ds, (r.block? d).isSome ∧ d.function = p.function)
    (hi : i.targets = ds.map r.label) :
    Agrees ⟨r.modifyFunction p.function g, es ++ ds.map (Edge.mk p)⟩ where
  edges e he := by
    simp only [Recorder.isSome_block?_write hg]
    rcases List.mem_append.1 he with he | he
    · exact h.edges e he
    · obtain ⟨d, hd, rfl⟩ := List.mem_map.1 he
      exact ⟨hp, (hds d hd).1, (hds d hd).2⟩
  code b B hB := by
    have hlabel : (fun d => (r.modifyFunction p.function g).label d) = r.label := by
      funext d
      exact Recorder.label_write hg
    have htargets : targets ⟨r.modifyFunction p.function g, es ++ ds.map (Edge.mk p)⟩ b =
        targets ⟨r, es⟩ b ++ if b = p then ds else [] := by
      simp only [targets, List.filter_append, List.map_append, List.filter_map, List.map_map]
      congr 1
      split
      · rename_i he
        simp [he, Function.comp_def]
      · rename_i hne
        simp [Function.comp_def, Ne.symm hne]
    -- labels stay, so a block other than the written one reads as before
    rw [Recorder.block?_write hg] at hB
    rw [htargets, List.map_append]
    show _ = List.map (fun d => (r.modifyFunction p.function g).label d) _ ++ _
    split at hB
    · rename_i he
      subst he
      obtain ⟨A, hA, rfl⟩ := Option.map_eq_some_iff.1 hB
      rw [hlabel, if_pos rfl, List.flatMap_append, h.code b A hA, List.flatMap_singleton, hi,
        ← hlabel]
    · rename_i hne
      rw [hlabel, if_neg hne, h.code b B hB]
      simp

/-- Blocks are added that nothing branches from or to yet, and labels stay. -/
theorem extend (h : Agrees ⟨r, es⟩) (hold : ∀ b B, r.block? b = some B → r'.block? b = some B)
    (hnew : ∀ b B, r'.block? b = some B → r.block? b = some B ∨ r.block? b = none ∧ B.code = []) :
    Agrees ⟨r', es⟩ where
  edges e he := by
    obtain ⟨hs, ht, hf⟩ := h.edges e he
    obtain ⟨A, hA⟩ := Option.isSome_iff_exists.1 hs
    obtain ⟨B, hB⟩ := Option.isSome_iff_exists.1 ht
    exact ⟨by rw [hold _ _ hA]; rfl, by rw [hold _ _ hB]; rfl, hf⟩
  code b B hB := by
    have hlabel : ∀ d ∈ targets ⟨r, es⟩ b, r'.label d = r.label d := by
      intro d hd
      obtain ⟨A, hA⟩ := Option.isSome_iff_exists.1 (h.isSome_of_mem_targets hd).1
      rw [Recorder.label, Recorder.label, hold _ _ hA, hA]
    show _ = (targets ⟨r, es⟩ b).map r'.label
    rw [List.map_congr_left hlabel]
    rcases hnew b B hB with hB | ⟨hnone, hcode⟩
    · exact h.code b B hB
    · -- an edge from a block means that the block is there
      have hempty : targets ⟨r, es⟩ b = [] := by
        refine List.map_eq_nil_iff.2 (List.filter_eq_nil_iff.2 fun e he hb => ?_)
        have hsome := (h.edges e he).1
        rw [show e.source = b by simpa using hb, hnone] at hsome
        cases hsome
      rw [hempty, hcode]
      rfl

/-- A function whose body is taken back goes with its branches. -/
theorem takeBack (h : Agrees ⟨r, es⟩) {f : FunctionId}
    (hr : ∀ b, r'.block? b = if f = b.function then none else r.block? b) :
    Agrees ⟨r', es.filter fun e => some f ≠ some e.source.function⟩ where
  edges e he := by
    obtain ⟨he, hf⟩ := List.mem_filter.1 he
    have hne : f ≠ e.source.function := by simpa using hf
    obtain ⟨hs, ht, hfun⟩ := h.edges e he
    have hs' : r'.block? e.source = r.block? e.source := by rw [hr, if_neg hne]
    have ht' : r'.block? e.target = r.block? e.target := by rw [hr, hfun, if_neg hne]
    exact ⟨by rw [hs']; exact hs, by rw [ht']; exact ht, hfun⟩
  code b B hB := by
    rw [hr] at hB
    split at hB
    · cases hB
    · rename_i hne
      have htargets : targets ⟨r', es.filter fun e => some f ≠ some e.source.function⟩ b =
          targets ⟨r, es⟩ b := by
        simp only [targets, List.filter_filter]
        congr 1
        refine List.filter_congr fun e _ => ?_
        by_cases hb : e.source = b
        · simp [hb, hne]
        · simp [hb]
      have hlabel : ∀ d ∈ targets ⟨r, es⟩ b, r'.label d = r.label d := by
        intro d hd
        rw [Recorder.label, Recorder.label, hr, (h.isSome_of_mem_targets hd).2, if_neg hne]
      rw [htargets]
      show _ = (targets ⟨r, es⟩ b).map r'.label
      rw [List.map_congr_left hlabel]
      exact h.code b B hB

end Agrees

/-- The chart records the code of the other recorder and agrees with it. -/
structure Mirrors (w : Known) (c : Charted) (r : Recorder) : Prop where
  recorder : c.recorder = r
  agrees : c.Agrees
  holds : r.Holds w

variable {α : Type} {w : Known} {c : Charted} {r : Recorder}

/-- Both answer the operation alike, and the chart is a mirror again. -/
def Answers (w : Known) (c : Charted) (r : Recorder) (op : Op α) : Prop :=
  ∃ a c' r', Charted.perform op c = .ok a c' ∧ Recorder.perform op r = .ok a r' ∧
    Mirrors (op.next w a) c' r'

namespace Mirrors

theorem answers (h : Mirrors w c r) {op : Op α} (hadm : op.Admissible w) {a : α} {r' : Recorder}
    (hop : Recorder.perform op r = .ok a r')
    (hedges : Agrees ⟨r', (c.edges.filter fun e => op.takenBack? ≠ some e.source.function) ++
      r.position.toList.flatMap fun b => op.destinations.map (Edge.mk b)⟩) : Answers w c r op := by
  obtain ⟨rfl, -, hholds⟩ := h
  obtain ⟨a', r'', hop', hholds'⟩ := hholds.perform op hadm
  cases hop.symm.trans hop'
  exact ⟨a, _, r', by simp only [Charted.perform, hop], hop, rfl, hedges, hholds'⟩

/-- An operation that is no branch. -/
theorem stays (h : Mirrors w c r) {op : Op α} (hadm : op.Admissible w) {a : α} {r' : Recorder}
    (hop : Recorder.perform op r = .ok a r') (hds : op.destinations = [])
    (hedges : Agrees ⟨r', c.edges.filter fun e => op.takenBack? ≠ some e.source.function⟩) :
    Answers w c r op := by
  have hnil : (r.position.toList.flatMap fun b => op.destinations.map (Edge.mk b)) = [] :=
    List.flatMap_eq_nil_iff.2 fun b _ => by rw [hds]; rfl
  refine h.answers hadm hop ?_
  rwa [hnil, List.append_nil]

/-- An operation that appends one instruction. -/
theorem write (h : Mirrors w c r) {op : Op α} (hadm : op.Admissible w) {a : α} {p : BlockRef}
    {g : Func → Func}
    {i : Instr} (hop : Recorder.perform op r = .ok a (r.modifyFunction p.function g))
    (hpos : r.position = some p)
    (hp : p ∈ w.blocks) (hg : ∀ F : Func, (g F).blocks = (F.append p.block i).blocks)
    (hi : i.targets = op.destinations.map r.label) (hback : op.takenBack? = none)
    (hds : op.destinations ⊆ w.blocks) : Answers w c r op := by
  obtain ⟨hsome, howner⟩ := h.holds.blocks p hp
  refine h.answers hadm hop ?_
  have hagrees : Agrees ⟨r, c.edges⟩ := h.recorder ▸ h.agrees
  have hwrite := hagrees.write hg op.destinations hsome (fun d hd => ?_) hi
  · simpa [hback, hpos] using hwrite
  · obtain ⟨hd, hfun⟩ := h.holds.blocks d (hds hd)
    exact ⟨hd, Option.some.inj (hfun.symm.trans howner)⟩

theorem define (h : Mirrors w c r) {op : Op Value} (hadm : op.Admissible w) {i : Reg → Instr}
    (hop : Recorder.perform op r = Recorder.define i r) (hw : w.placed = true)
    (hi : ∀ dst, (i dst).targets = []) (hback : op.takenBack? = none) (hds : op.destinations = []) :
    Answers w c r op := by
  obtain ⟨p, hp, hpos⟩ := h.holds.placed hw
  exact h.write hadm (hop.trans (Recorder.define_at hpos i)) hpos hp (fun _ => rfl)
    (by rw [hi, hds]; rfl) hback (by rw [hds]; exact List.nil_subset _)

theorem push (h : Mirrors w c r) {op : Op Unit} (hadm : op.Admissible w) {i : Instr}
    (hop : Recorder.perform op r = Recorder.push i r) (hw : w.placed = true)
    (hi : i.targets = op.destinations.map r.label) (hback : op.takenBack? = none)
    (hds : op.destinations ⊆ w.blocks) :
    Answers w c r op := by
  obtain ⟨p, hp, hpos⟩ := h.holds.placed hw
  exact h.write hadm (hop.trans (Recorder.push_at hpos i)) hpos hp (fun _ => rfl) hi hback hds

/-- An operation that only answers, or changes what the code does not show. -/
theorem extend (h : Mirrors w c r) {op : Op α} (hadm : op.Admissible w) {a : α} {r' : Recorder}
    (hop : Recorder.perform op r = .ok a r') (hback : op.takenBack? = none)
    (hds : op.destinations = []) (hold : ∀ b B, r.block? b = some B → r'.block? b = some B)
    (hnew : ∀ b B, r'.block? b = some B → r.block? b = some B ∨ r.block? b = none ∧ B.code = []) :
    Answers w c r op := by
  have hagrees : Agrees ⟨r, c.edges⟩ := h.recorder ▸ h.agrees
  refine h.stays hadm hop hds ?_
  simpa [hback] using hagrees.extend hold hnew

theorem same (h : Mirrors w c r) {op : Op α} (hadm : op.Admissible w) {a : α} {r' : Recorder}
    (hop : Recorder.perform op r = .ok a r') (hback : op.takenBack? = none)
    (hds : op.destinations = []) (hr : r'.functions = r.functions) : Answers w c r op := by
  have hblock : ∀ b, r'.block? b = r.block? b := fun b => by
    simp only [Recorder.block?, Recorder.function?, hr]
  exact h.extend hadm hop hback hds (fun b B hB => (hblock b).trans hB) fun b B hB =>
    .inl ((hblock b).symm.trans hB)

theorem takeBack (h : Mirrors w c r) {op : Op Unit} (hadm : op.Admissible w) {f : FunctionId}
    {r' : Recorder} (hop : Recorder.perform op r = .ok () r')
    (hback : op.takenBack? = some f) (hds : op.destinations = [])
    (hr : ∀ b, r'.block? b = if f = b.function then none else r.block? b) : Answers w c r op := by
  have hagrees : Agrees ⟨r, c.edges⟩ := h.recorder ▸ h.agrees
  refine h.stays hadm hop hds ?_
  simpa [hback] using hagrees.takeBack hr

theorem perform (h : Mirrors w c r) (op : Op α) (hop : op.Admissible w) : Answers w c r op := by
  cases op with
  | constInt | constDouble | functionParam | isTerminated | getFunction | positionAtEnd =>
    exact h.same hop rfl rfl rfl rfl
  | declareFunction name signature =>
    have hblock := r.block?_declare name signature
    exact h.extend hop rfl rfl rfl (fun b B hB => (hblock b).trans hB) fun b B hB =>
      .inl ((hblock b).symm.trans hB)
  | appendBlock f hint =>
    obtain ⟨F, hF⟩ := Option.isSome_iff_exists.1 (h.holds.owner f hop)
    refine h.extend hop (Recorder.perform_appendBlock hF hint) rfl rfl
      (fun b B => Recorder.block?_addBlock_of_some hF hint) fun b B hB => ?_
    rw [Recorder.block?_addBlock hF] at hB
    split at hB
    · rename_i he
      cases hB
      exact .inr ⟨he ▸ Recorder.block?_next hF, rfl⟩
    · exact .inl hB
  | load ty ptr => exact h.define hop (i := (.load · ty ptr)) rfl hop (fun _ => rfl) rfl rfl
  | arith op ty l r => exact h.define hop (i := (.arith · op ty l r)) rfl hop (fun _ => rfl) rfl rfl
  | compare pred ty l r =>
    exact h.define hop (i := (.compare · pred ty l r)) rfl hop (fun _ => rfl) rfl rfl
  | cast kind v => exact h.define hop (i := (.cast · kind v)) rfl hop (fun _ => rfl) rfl rfl
  | stackAlloc ty name =>
    exact h.define hop (i := (.stackAlloc · ty name)) rfl hop (fun _ => rfl) rfl rfl
  | heapAlloc ty name =>
    exact h.define hop (i := (.heapAlloc · ty name)) rfl hop (fun _ => rfl) rfl rfl
  | call f args =>
    exact h.define hop (i := (.call · (((r.function? f).map Func.name).getD "") args)) rfl hop.1
      (fun _ => rfl) rfl rfl
  | store v ptr => exact h.push hop (i := .store v ptr) rfl hop rfl rfl (List.nil_subset _)
  | heapFree ptr => exact h.push hop (i := .heapFree ptr) rfl hop rfl rfl (List.nil_subset _)
  | ret v => exact h.push hop (i := .ret v) rfl hop rfl rfl (List.nil_subset _)
  | unreachable => exact h.push hop (i := .unreachable) rfl hop rfl rfl (List.nil_subset _)
  | comment text =>
    obtain ⟨p, -, hpos⟩ := h.holds.placed hop
    exact h.push hop (Recorder.comment_at hpos text) hop rfl rfl (List.nil_subset _)
  | branch t =>
    exact h.push hop (i := .branch (r.label t)) rfl hop.1 rfl rfl
      (by simpa [Op.destinations] using hop.2)
  | condBranch v yes no =>
    exact h.push hop (i := .condBranch v (r.label yes) (r.label no)) rfl hop.1 rfl rfl
      (by simpa [Op.destinations] using hop.2)
  | discardFunction f => exact h.takeBack hop rfl rfl rfl fun b => r.block?_discard f b
  | clearBody f => exact h.takeBack hop rfl rfl rfl fun b => r.block?_clearBody f b

end Mirrors

theorem related : Emitter.Related Mirrors where
  forget h := ⟨h.recorder, h.agrees, Recorder.holds_nothing _⟩
  enter hf h := ⟨h.recorder, h.agrees, h.holds.enter hf⟩
  perform op hop h := h.perform op hop

/-- The labels in a block lead to the blocks that were branched to from it. -/
def Leads (c : Charted) (id : FunctionId) (F : Func) : Prop :=
  ∀ i b, F.blocks[i]? = some b →
    (b.code.flatMap Instr.targets).map F.block? = (c.targets ⟨id, ⟨i⟩⟩).map c.recorder.block? ∧
      ∀ t ∈ c.targets ⟨id, ⟨i⟩⟩, t.function = id ∧ (c.recorder.block? t).isSome

theorem Agrees.leads (h : c.Agrees) {id : FunctionId} {F : Func}
    (hF : c.recorder.function? id = some F) (hlabels : (F.blocks.map BasicBlock.label).Nodup) :
    c.Leads id F := by
  intro i b hb
  have hblock : c.recorder.block? ⟨id, ⟨i⟩⟩ = some b := by simp [Recorder.block?, hF, hb]
  refine ⟨?_, fun t ht => (h.isSome_of_mem_targets ht).symm⟩
  rw [h.code _ b hblock, List.map_map]
  refine List.map_congr_left fun t ht => ?_
  obtain ⟨hsome, hfun⟩ := h.isSome_of_mem_targets ht
  obtain ⟨B, hB⟩ := Option.isSome_iff_exists.1 hsome
  have hmem : B ∈ F.blocks := by
    rw [Recorder.block?, hfun, hF] at hB
    exact List.mem_of_getElem? hB
  simp [Recorder.label, hB, Func.block?_label hlabels hmem]

theorem mirrors_compile (source : String) :
    (compile source Charted.empty).1 = (compile source Recorder.empty).1 ∧
      Mirrors .nothing (compile source Charted.empty).2 (compile source Recorder.empty).2 := by
  refine compile_related related source ⟨rfl, ⟨by simp [Charted.empty], ?_⟩,
    Recorder.holds_nothing _⟩
  intro b B hB
  cases hB

end Charted

/-- Each function body of a compiled module has its control flow as it should be, and its labels
lead to the blocks that lowering branched to. -/
theorem compile_wellFormed (source : String) {F : Func}
    (hF : F ∈ (compile source Recorder.empty).2.toModule.functions) (hbody : F.blocks ≠ []) :
    F.WellFormed ∧ (compile source Charted.empty).1 = (compile source Recorder.empty).1 ∧
      (compile source Charted.empty).2.recorder = (compile source Recorder.empty).2 ∧
      ∀ id, (compile source Recorder.empty).2.function? id = some F →
      (compile source Charted.empty).2.Leads id F := by
  obtain ⟨Γ, hdrafted, -⟩ := compile_drafted source hF hbody
  obtain ⟨hsame, hmirrors⟩ := Charted.mirrors_compile source
  have hwell := hdrafted.wellFormed
  refine ⟨hwell, hsame, hmirrors.recorder, fun id hid => ?_⟩
  exact hmirrors.agrees.leads (by rw [hmirrors.recorder, hid]) hwell.labels

/-- A branch inside a loop, with a return in one of its arms. -/
theorem compile_wellFormed_loop :
    let source := "int f(int n) \x7b int i; while (i < n) \x7b " ++
      "if (n < 5) \x7b i = n; \x7d else \x7b return i; \x7d \x7d \x7d"
    let r := (compile source Recorder.empty).2
    let c := (compile source Charted.empty).2
    ∃ F, r.function? ⟨0⟩ = some F ∧ F.blocks.length = 7 ∧ F.WellFormed ∧ c.recorder = r ∧
      c.edges.length = 7 ∧
      c.Leads ⟨0⟩ F := by
  intro source r c
  have hsome : (r.function? ⟨0⟩).map (fun F => F.blocks.length) = some 7 := by decide +kernel
  have hedges : c.edges.length = 7 := by decide +kernel
  obtain ⟨F, hF, hlen⟩ := Option.map_eq_some_iff.1 hsome
  obtain ⟨hwell, -, hrec, hleads⟩ := compile_wellFormed source (Recorder.mem_toModule.2 ⟨⟨0⟩, hF⟩)
    (List.ne_nil_of_length_pos (by omega))
  exact ⟨F, hF, hlen, hwell, hrec, hedges, hleads ⟨0⟩ hF⟩

end ImpFront
