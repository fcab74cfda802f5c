import Mathlib
import ImpFront.Proofs.Chart
import ImpFront.Proofs.Registers

/-! What a recorder keeps in order by itself. Whoever writes to it may name functions and blocks
that do not exist, that were discarded or that come to exist later, and may write without a
position. Still the blocks of a function have labels of their own, each register is defined once,
and a slot belongs to one function for ever. All of this is read off one inversion: what an
operation can do to a function, and what it can do to the slots. -/

namespace ImpFront

namespace Func

/-- The registers that the code defines, in the order of the code. -/
def dsts (F : Func) : List Reg := F.code.filterMap Instr.dst?

/-- All that an operation can do to a function that it does not discard. -/
inductive Step (F : Func) : Func → Prop
  | refl : Step F F
  | write (b : BlockId) {i : Instr} (h : i.dst? = none) : Step F (F.append b i)
  | define (b : BlockId) {i : Instr} (h : i.dst? = some ⟨F.registers⟩) :
      Step F (F.append b i).addRegister
  | addBlock (hint : String) : Step F (F.addBlock hint)
  | clear : Step F { F with blocks := [], registers := 0 }

/-- Labels are distinct, and each register that is defined is in use and defined once. -/
structure Sound (F : Func) : Prop where
  labels : (F.blocks.map BasicBlock.label).Nodup
  below : ∀ d ∈ F.dsts, d.index < F.registers
  once : F.dsts.Nodup

variable {F F' : Func}

theorem sound_bare (hblocks : F.blocks = []) : F.Sound := by
  have hdsts : F.dsts = [] := by rw [dsts, code, hblocks]; rfl
  exact ⟨by rw [hblocks]; exact List.nodup_nil, by simp [hdsts],
    by rw [hdsts]; exact List.nodup_nil⟩

/-- An instruction for a block that does not exist is dropped. -/
theorem dsts_append_subperm (F : Func) (b : BlockId) (i : Instr) :
    (F.append b i).dsts.Subperm (F.dsts ++ i.dst?.toList) := by
  by_cases hb : b.index < F.blocks.length
  · have hdsts : (F.code ++ [i]).filterMap Instr.dst? = F.dsts ++ i.dst?.toList := by
      rw [List.filterMap_append, dsts]
      cases h : i.dst? <;> simp [h]
    rw [← hdsts]
    exact ((code_write_perm hb [i] F.registers).filterMap _).subperm
  · have hsame : F.append b i = F := by rw [append, List.modify_eq_self (Nat.le_of_not_lt hb)]
    rw [hsame]
    exact (List.sublist_append_left _ _).subperm

theorem nodup_dsts_append {b : BlockId} {i : Instr} (h : (F.dsts ++ i.dst?.toList).Nodup) :
    (F.append b i).dsts.Nodup := by
  obtain ⟨l, hperm, hsub⟩ := F.dsts_append_subperm b i
  exact hperm.nodup_iff.1 (hsub.nodup h)

theorem labels_append (F : Func) (b : BlockId) (i : Instr) :
    (F.append b i).blocks.map BasicBlock.label = F.blocks.map BasicBlock.label := by
  have hlabel : ∀ B : BasicBlock,
      BasicBlock.label { B with code := B.code ++ [i] } = id (BasicBlock.label B) := fun _ => rfl
  rw [append, map_modify hlabel, List.modify_id]

theorem dsts_addBlock (F : Func) (hint : String) : (F.addBlock hint).dsts = F.dsts := by
  simp [dsts, code, addBlock]

theorem Sound.step (h : F.Sound) (hstep : F.Step F') : F'.Sound := by
  cases hstep with
  | refl => exact h
  | @write b i hi =>
    have hsub := F.dsts_append_subperm b i
    rw [hi, Option.toList_none, List.append_nil] at hsub
    refine ⟨by rw [labels_append]; exact h.labels, fun d hd => h.below d (hsub.subset hd),
      nodup_dsts_append ?_⟩
    rw [hi, Option.toList_none, List.append_nil]
    exact h.once
  | @define b i hi =>
    have hsub := F.dsts_append_subperm b i
    rw [hi, Option.toList_some] at hsub
    refine ⟨(F.labels_append b i).symm ▸ h.labels, fun d hd => ?_, nodup_dsts_append ?_⟩
    · show d.index < F.registers + 1
      rcases List.mem_append.1 (hsub.subset hd) with hd | hd
      · exact Nat.lt_succ_of_lt (h.below d hd)
      · rw [List.mem_singleton.1 hd]
        exact Nat.lt_succ_self _
    · -- the registers in use are below the new one
      rw [hi, Option.toList_some]
      refine List.nodup_append.2 ⟨h.once, List.nodup_singleton _, ?_⟩
      rintro d hd _ hnew rfl
      rw [List.mem_singleton.1 hnew] at hd
      exact absurd (h.below _ hd) (Nat.lt_irrefl _)
  | addBlock hint =>
    refine ⟨?_, ?_, by rw [dsts_addBlock]; exact h.once⟩
    · rw [Func.addBlock, List.map_append]
      refine List.nodup_append.2 ⟨h.labels, List.nodup_singleton _, ?_⟩
      rintro l hl _ hnew rfl
      rw [List.mem_singleton.1 hnew] at hl
      exact freshLabel_not_mem _ hint hl
    · rw [dsts_addBlock]
      exact h.below
  | clear => exact sound_bare rfl

theorem Step.signature (h : F.Step F') : F'.name = F.name ∧ F'.signature = F.signature := by
  cases h <;> exact ⟨rfl, rfl⟩

theorem Sound.countP_dst? (h : F.Sound) {i : Instr} {d : Reg} (hi : i ∈ F.code)
    (hd : i.dst? = some d) :
    F.code.countP (fun j => j.dst? == some d) = 1 := by
  have hmem : d ∈ F.dsts := List.mem_filterMap.2 ⟨i, hi, hd⟩
  rw [← List.count_eq_one_of_mem h.once hmem, dsts, List.count_filterMap]

end Func

/-- The function that an operation takes away. -/
def Op.discarded? {α : Type} : Op α → Option FunctionId
  | .discardFunction id => some id
  | _ => none

namespace Recorder

variable {r r' r'' : Recorder} {gone : Option FunctionId} {α : Type}

/-- All that an operation can do to the slots. A function that is there afterwards has taken a step,
or it is bare and has a slot of its own; one function at most is not there any more. -/
structure Moves (gone : Option FunctionId) (r r' : Recorder) : Prop where
  length : r.functions.length ≤ r'.functions.length
  live : ∀ id F', r'.function? id = some F' → (∃ F, r.function? id = some F ∧ F.Step F') ∨
    (r.functions.length ≤ id.index ∧ F'.blocks = [])
  kept : ∀ id F, some id ≠ gone → r.function? id = some F → ∃ F', r'.function? id = some F'

theorem moves_of_functions_eq (h : r'.functions = r.functions) : Moves gone r r' := by
  have hsame : ∀ id, r'.function? id = r.function? id := fun id => by rw [function?, function?, h]
  exact ⟨by rw [h], fun id F' hF' => .inl ⟨F', hsame id ▸ hF', .refl⟩,
    fun id F _ hF => ⟨F, (hsame id).trans hF⟩⟩

theorem moves_modifyFunction {id : FunctionId} {g : Func → Func}
    (h : ∀ F, r.function? id = some F → F.Step (g F)) :
    Moves gone r (r.modifyFunction id g) := by
  refine ⟨by simp [modifyFunction], fun other F' hF' => .inl ?_, fun other F _ hF => ?_⟩
  · rw [function?_modifyFunction] at hF'
    split at hF'
    · rename_i heq
      subst heq
      obtain ⟨F, hF, rfl⟩ := Option.map_eq_some_iff.1 hF'
      exact ⟨F, hF, h F hF⟩
    · exact ⟨F', hF', .refl⟩
  · rw [function?_modifyFunction, hF]
    split
    · exact ⟨g F, rfl⟩
    · exact ⟨F, rfl⟩

theorem Moves.leave (h : Moves gone r r') (id : FunctionId) : Moves gone r (r'.leave id) :=
  ⟨h.length, h.live, h.kept⟩

theorem moves_push {i : Instr} (hi : i.dst? = none) {u : Unit} (h : push i r = .ok u r') :
    Moves gone r r' := by
  unfold push at h
  split at h
  · cases h
    exact moves_modifyFunction fun F _ => .write _ hi
  · cases h

theorem moves_define {i : Reg → Instr} (hi : ∀ d, (i d).dst? = some d) {v : Value}
    (h : define i r = .ok v r') :
    Moves gone r r' := by
  unfold define at h
  split at h
  · rename_i b hb
    cases h
    refine moves_modifyFunction fun F hF => .define _ ?_
    rw [hi, nextReg, hF]
    rfl
  · cases h

theorem moves_declare (r : Recorder) (name : String) (signature : Signature) :
    Moves gone r (r.declare name signature).2 := by
  refine ⟨by simp [declare], fun id F' hF' => ?_, fun id F _ hF => ?_⟩
  · rw [function?_declare] at hF'
    split at hF'
    · rename_i hid
      cases hF'
      exact .inr ⟨by rw [hid], rfl⟩
    · exact .inl ⟨F', hF', .refl⟩
  · rw [function?_declare]
    split
    · exact ⟨_, rfl⟩
    · exact ⟨F, hF⟩

theorem function?_discard (r : Recorder) (id other : FunctionId) :
    (r.discard id).function? other = if id = other then none else r.function? other := by
  obtain ⟨i⟩ := id
  obtain ⟨j⟩ := other
  simp only [function?, discard, Recorder.leave, List.getElem?_set, Handle.mk.injEq]
  split
  · split <;> rfl
  · rfl

theorem moves_discard (r : Recorder) (id : FunctionId) : Moves (some id) r (r.discard id) := by
  refine ⟨by simp [discard, Recorder.leave], fun other F' hF' => .inl ⟨F', ?_, .refl⟩,
    fun other F hother hF => ⟨F, ?_⟩⟩
  · rw [function?_discard] at hF'
    split at hF'
    · cases hF'
    · exact hF'
  · rw [function?_discard, if_neg fun heq : id = other => hother (congrArg some heq.symm), hF]

theorem moves_of_perform {op : Op α} {a : α} (h : perform op r = .ok a r') :
    Moves op.discarded? r r' := by
  cases op with
  | load | arith | compare | cast | stackAlloc | heapAlloc | call =>
    unfold perform at h
    exact moves_define (fun _ => rfl) h
  | store | heapFree | branch | condBranch | ret | unreachable =>
    unfold perform at h
    exact moves_push rfl h
  | comment text =>
    simp only [perform] at h
    split at h
    · exact moves_push rfl h
    · cases h
      exact moves_of_functions_eq rfl
  | appendBlock f hint =>
    cases hF : r.function? f with
    | none =>
      simp only [perform, answer, appendBlock, hF] at h
      cases h
      exact moves_of_functions_eq rfl
    | some F =>
      rw [perform_appendBlock hF] at h
      cases h
      exact moves_modifyFunction fun F _ => .addBlock hint
  | declareFunction name signature =>
    cases h
    exact r.moves_declare name signature
  | discardFunction f =>
    cases h
    exact r.moves_discard f
  | clearBody f =>
    cases h
    exact (moves_modifyFunction fun F _ => .clear).leave f
  | constInt | constDouble | functionParam | isTerminated | getFunction | positionAtEnd =>
    cases h
    exact moves_of_functions_eq rfl

/-- Only the lack of a position makes an operation fail. -/
theorem position_of_perform_eq_error {op : Op α} {e : NoInsertionBlock}
    (h : perform op r = .error e r') :
    r.position = none := by
  cases hp : r.position with
  | none => rfl
  | some b => cases op <;> simp [perform, define, push, answer, change, hp] at h

/-- The recorder after an operation, also after one that fails. -/
def after (op : Op α) (r : Recorder) : Recorder :=
  match perform op r with
  | .ok _ r' => r'
  | .error _ r' => r'

theorem moves_after (op : Op α) (r : Recorder) : Moves op.discarded? r (r.after op) := by
  unfold after
  cases h : perform op r with
  | ok a r' => exact moves_of_perform h
  | error e r' =>
    rw [eq_of_perform_eq_error h]
    exact moves_of_functions_eq rfl

/-- All functions of the recorder are sound. -/
def Sound (r : Recorder) : Prop := ∀ id F, r.function? id = some F → F.Sound

theorem Sound.moves (h : r.Sound) (hmoves : Moves gone r r') : r'.Sound := by
  intro id F' hF'
  rcases hmoves.live id F' hF' with ⟨F, hF, hstep⟩ | ⟨-, hbare⟩
  · exact (h id F hF).step hstep
  · exact Func.sound_bare hbare

/-- Slots are only added, and one that is in use belongs to the function that it was made for. -/
structure Later (r r' : Recorder) : Prop where
  length : r.functions.length ≤ r'.functions.length
  owned : ∀ id F', id.index < r.functions.length → r'.function? id = some F' →
    ∃ F, r.function? id = some F ∧ F'.name = F.name ∧ F'.signature = F.signature

theorem Later.refl (r : Recorder) : r.Later r :=
  ⟨Nat.le_refl _, fun _ F' _ hF' => ⟨F', hF', rfl, rfl⟩⟩

theorem Later.trans (h : r.Later r') (h' : r'.Later r'') : r.Later r'' := by
  refine ⟨h.length.trans h'.length, fun id F'' hid hF'' => ?_⟩
  obtain ⟨F', hF', hname', hsig'⟩ := h'.owned id F'' (hid.trans_le h.length) hF''
  obtain ⟨F, hF, hname, hsig⟩ := h.owned id F' hid hF'
  exact ⟨F, hF, hname'.trans hname, hsig'.trans hsig⟩

theorem Later.function?_eq_none (h : r.Later r') {id : FunctionId}
    (hid : id.index < r.functions.length) (hnone : r.function? id = none) :
    r'.function? id = none := by
  cases hF' : r'.function? id with
  | none => rfl
  | some F' =>
    obtain ⟨F, hF, -⟩ := h.owned id F' hid hF'
    rw [hnone] at hF
    cases hF

theorem Moves.later (h : Moves gone r r') : r.Later r' := by
  refine ⟨h.length, fun id F' hid hF' => ?_⟩
  rcases h.live id F' hF' with ⟨F, hF, hstep⟩ | ⟨hnew, -⟩
  · exact ⟨F, hF, hstep.signature⟩
  · omega

theorem index_lt_of_function? {id : FunctionId} {F : Func} (h : r.function? id = some F) :
    id.index < r.functions.length :=
  (List.getElem?_eq_some_iff.1 (Option.join_eq_some_iff.1 h)).1

end Recorder

/-- An operation, whatever it answers. -/
abbrev AnyOp := Σ α : Type, Op α

namespace Recorder

variable {r : Recorder}

/-- The recorder after operations of which some may fail. -/
def run : List AnyOp → Recorder → Recorder
  | [], r => r
  | op :: ops, r => run ops (r.after op.2)

theorem Sound.run (h : r.Sound) (ops : List AnyOp) : (r.run ops).Sound := by
  induction ops generalizing r with
  | nil => exact h
  | cons op ops ih => exact ih (h.moves (r.moves_after op.2))

theorem sound_empty : Recorder.empty.Sound := fun _ _ hF => by cases hF

theorem later_run (ops : List AnyOp) (r : Recorder) : r.Later (r.run ops) := by
  induction ops generalizing r with
  | nil => exact .refl r
  | cons op ops ih => exact (r.moves_after op.2).later.trans (ih _)

theorem live_run {ops : List AnyOp} {id : FunctionId} {F : Func}
    (hkept : ⟨Unit, .discardFunction id⟩ ∉ ops) (hF : r.function? id = some F) :
    ∃ F', (r.run ops).function? id = some F' := by
  induction ops generalizing r F with
  | nil => exact ⟨F, hF⟩
  | cons op ops ih =>
    have hop : some id ≠ op.2.discarded? := by
      intro heq
      obtain ⟨β, op⟩ := op
      cases op <;> cases heq
      exact hkept List.mem_cons_self
    obtain ⟨F', hF'⟩ := (r.moves_after op.2).kept id F hop hF
    exact ih (fun hmem => hkept (List.mem_cons_of_mem _ hmem)) hF'

theorem index_le_of_find? {name : String} {id id' : FunctionId} {F : Func}
    (h : r.find? name = some id) (hF : r.function? id' = some F) (hname : F.name = name) :
    id.index ≤ id'.index := by
  obtain ⟨i, hi, rfl⟩ := Option.map_eq_some_iff.1 h
  obtain ⟨hlen, -, hbefore⟩ := List.findIdx?_eq_some_iff_getElem.1 hi
  by_contra hlt
  have hget := (List.getElem?_eq_some_iff.1 (Option.join_eq_some_iff.1 hF)).2
  exact hbefore id'.index (Nat.lt_of_not_le hlt) (by simp [hget, hname])

/-- Of several functions of one name the first is found. -/
theorem find?_eq_some_iff {name : String} {id : FunctionId} :
    r.find? name = some id ↔ (∃ F, r.function? id = some F ∧ F.name = name) ∧
      ∀ id' F', r.function? id' = some F' → F'.name = name → id.index ≤ id'.index := by
  refine ⟨fun h => ⟨function?_of_find? h, fun id' F' => index_le_of_find? h⟩, ?_⟩
  rintro ⟨⟨F, hF, rfl⟩, hlowest⟩
  cases hfind : r.find? F.name with
  | none => exact absurd (mem_names.2 ⟨id, F, hF, rfl⟩) (find?_eq_none.1 hfind)
  | some id' =>
    obtain ⟨F', hF', hname'⟩ := function?_of_find? hfind
    have heq : id'.index = id.index :=
      Nat.le_antisymm (index_le_of_find? hfind hF rfl) (hlowest id' F' hF' hname')
    obtain ⟨i⟩ := id
    obtain ⟨i'⟩ := id'
    exact congrArg (fun k => some (Handle.mk k)) heq

end Recorder

/-- Any operations on a new recorder, with any handles and names, leave it in order. -/
theorem run_empty_invariant (ops : List AnyOp) :
    let r := Recorder.empty.run ops
    (∀ id F, r.function? id = some F → (F.blocks.map BasicBlock.label).Nodup ∧
      ∀ i ∈ F.code, ∀ d,
        i.dst? = some d → d.index < F.registers ∧ F.code.countP (fun j => j.dst? == some d) = 1) ∧
    (∀ more : List AnyOp, let r' := r.run more
      r.functions.length ≤ r'.functions.length ∧
      (∀ id F F', r.function? id = some F → r'.function? id = some F' → F'.name = F.name ∧
        F'.signature = F.signature) ∧
      (∀ id F, r.function? id = some F → ⟨Unit, .discardFunction id⟩ ∉ more → ∃ F',
        r'.function? id = some F') ∧
      (∀ id, id.index < r.functions.length → r.function? id = none → r'.function? id = none)) ∧
    (∀ name, ∃ answer, Recorder.perform (.getFunction name) r = .ok answer r ∧
      ∀ id, answer = some id ↔ (∃ F, r.function? id = some F ∧ F.name = name) ∧
        ∀ id' F', r.function? id' = some F' → F'.name = name → id.index ≤ id'.index) ∧
    (∀ {α : Type} (op : Op α) e r',
      Recorder.perform op r = .error e r' → r.position = none ∧ r' = r) := by
  intro r
  have hsound : r.Sound := Recorder.sound_empty.run ops
  refine ⟨fun id F hF => ?_, fun more => ?_,
    fun name => ⟨r.find? name, rfl, fun id => Recorder.find?_eq_some_iff⟩, ?_⟩
  · exact ⟨(hsound id F hF).labels, fun i hi d hd =>
      ⟨(hsound id F hF).below d (List.mem_filterMap.2 ⟨i, hi, hd⟩),
        (hsound id F hF).countP_dst? hi hd⟩⟩
  · have hlater := Recorder.later_run more r
    refine ⟨hlater.length, fun id F F' hF hF' => ?_,
      fun id F hF hkept => Recorder.live_run hkept hF, fun id => hlater.function?_eq_none⟩
    obtain ⟨F₀, hF₀, hsig⟩ := hlater.owned id F' (Recorder.index_lt_of_function? hF) hF'
    rw [hF] at hF₀
    cases hF₀
    exact hsig
  · exact fun op e r' h =>
      ⟨Recorder.position_of_perform_eq_error h, Recorder.eq_of_perform_eq_error h⟩

end ImpFront
