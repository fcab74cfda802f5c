import Mathlib
import ImpFront.Compile

/-! A function body on its way into a recorder. While one body is lowered, only the function itself,
the block that is written to, the scopes, the temporaries and the list of functions declared on the
way can change. A `Body` holds these five; a `Site` holds what stays. On a state made of the two
every elementary step of lowering is computed below, so that later proofs rewrite with these
equations and never open the recorder again. -/

namespace ImpFront

open Lower

theorem bind_eq_ok {ε σ α β : Type} {x : EStateM ε σ α} {k : α → EStateM ε σ β} {s s' : σ} {b : β} :
    (x >>= k) s = .ok b s' ↔ ∃ a t, x s = .ok a t ∧ k a t = .ok b s' := by
  show EStateM.bind x k s = .ok b s' ↔ _
  unfold EStateM.bind
  cases x s with
  | ok a t => simp
  | error e t => simp

theorem bind_of_ok {ε σ α β : Type} {x : EStateM ε σ α} {k : α → EStateM ε σ β} {s t : σ} {a : α}
    (h : x s = .ok a t) : (x >>= k) s = k a t := by
  show EStateM.bind x k s = k a t
  unfold EStateM.bind
  rw [h]

theorem bind_of_error {ε σ α β : Type} {x : EStateM ε σ α} {k : α → EStateM ε σ β} {s t : σ} {e : ε}
    (h : x s = .error e t) : (x >>= k) s = .error e t := by
  show EStateM.bind x k s = .error e t
  unfold EStateM.bind
  rw [h]

theorem pure_apply {ε σ α : Type} (a : α) (s : σ) : (pure a : EStateM ε σ α) s = .ok a s := rfl

theorem emit_of_perform {α : Type} {op : Op α} {s : Lowering Recorder} {a : α} {t : Recorder}
    (h : Recorder.perform op s.target = .ok a t) : emit op s = .ok a { s with target := t } := by
  have hp : Emitter.perform op s.target = .ok a t := h
  simp only [emit, hp]

namespace Func

def labelAt (F : Func) (i : Nat) : String := ((F.blocks[i]?).map BasicBlock.label).getD ""

def codeAt (F : Func) (i : Nat) : List Instr := ((F.blocks[i]?).map BasicBlock.code).getD []

/-- Appends instructions to a block and sets how many registers are in use. -/
def write (b : Nat) (is : List Instr) (n : Nat) (F : Func) : Func :=
  { F with blocks := F.blocks.modify b fun B => { B with code := B.code ++ is }, registers := n }

/-- Appends an empty block with a label that no block has yet. -/
def addBlock (hint : String) (F : Func) : Func :=
  { F with blocks := F.blocks ++ [⟨freshLabel (F.blocks.map BasicBlock.label) hint, []⟩] }

theorem write_write (b : Nat) (is js : List Instr) (n m : Nat) (F : Func) :
    (F.write b is n).write b js m = F.write b (is ++ js) m := by
  simp only [write, List.modify_modify_eq]
  congr 2
  funext B
  simp

theorem write_nil (b : Nat) (F : Func) : F.write b [] F.registers = F := by
  have h : (fun B : BasicBlock => { B with code := B.code ++ [] }) = id := by
    funext B
    simp
  simp only [write, h, List.modify_id]

end Func

/-- A function body while it is lowered. -/
structure Body where
  func : Func
  /-- The block that is written to. -/
  block : Nat
  scopes : Scopes Value
  temporaries : List Value
  /-- The functions that were declared since the body was begun. -/
  declared : List (String × Signature)

/-- Where a body is lowered: the state in which it was begun and the slot of its function. -/
structure Site where
  start : Lowering Recorder
  id : FunctionId
  ret : Ty
  live : id.index < start.target.functions.length
  current : start.current = some ⟨id, ret⟩

/-- The slot of a function that is only declared. -/
def Recorder.slot (d : String × Signature) : Option Func := some ⟨d.1, d.2, [], 0⟩

namespace Body

/-- The body after straight code: instructions in its block, temporaries, declared functions. -/
def write (B : Body) (is : List Instr) (n : Nat) (ts : List Value)
    (ds : List (String × Signature)) : Body :=
  { B with
    func := B.func.write B.block is n
    temporaries := ts ++ B.temporaries
    declared := B.declared ++ ds }

@[simp] theorem write_write (B : Body) (is js : List Instr) (n m : Nat) (ts us : List Value)
    (ds es : List (String × Signature)) :
    (B.write is n ts ds).write js m us es = B.write (is ++ js) m (us ++ ts) (ds ++ es) := by
  simp [write, Func.write_write]

@[simp] theorem write_nil (B : Body) : B.write [] B.func.registers [] [] = B := by
  simp [write, Func.write_nil]

@[simp] theorem write_registers (B : Body) (is : List Instr) (n : Nat) (ts : List Value)
    (ds : List (String × Signature)) : (B.write is n ts ds).func.registers = n := rfl

@[simp] theorem write_scopes (B : Body) (is : List Instr) (n : Nat) (ts : List Value)
    (ds : List (String × Signature)) : (B.write is n ts ds).scopes = B.scopes := rfl

@[simp] theorem write_block (B : Body) (is : List Instr) (n : Nat) (ts : List Value)
    (ds : List (String × Signature)) : (B.write is n ts ds).block = B.block := rfl

@[simp] theorem write_temporaries (B : Body) (is : List Instr) (n : Nat) (ts : List Value)
    (ds : List (String × Signature)) : (B.write is n ts ds).temporaries = ts ++ B.temporaries := rfl

def rescope (B : Body) (sc : Scopes Value) : Body := { B with scopes := sc }

@[simp] theorem rescope_func (B : Body) (sc : Scopes Value) : (B.rescope sc).func = B.func := rfl

@[simp] theorem rescope_block (B : Body) (sc : Scopes Value) : (B.rescope sc).block = B.block := rfl

@[simp] theorem rescope_scopes (B : Body) (sc : Scopes Value) : (B.rescope sc).scopes = sc := rfl

@[simp] theorem rescope_temporaries (B : Body) (sc : Scopes Value) :
    (B.rescope sc).temporaries = B.temporaries := rfl

@[simp] theorem rescope_self (B : Body) : B.rescope B.scopes = B := rfl

@[simp] theorem rescope_rescope (B : Body) (sc sc' : Scopes Value) :
    (B.rescope sc).rescope sc' = B.rescope sc' := rfl

@[simp] theorem rescope_write (B : Body) (sc : Scopes Value) (is : List Instr) (n : Nat)
    (ts : List Value) (ds : List (String × Signature)) :
    (B.rescope sc).write is n ts ds = (B.write is n ts ds).rescope sc := rfl

def addBlock (B : Body) (hint : String) : Body := { B with func := B.func.addBlock hint }

/-- The body with another block to write to. -/
def moveTo (B : Body) (i : Nat) : Body := { B with block := i }

@[simp] theorem moveTo_func (B : Body) (i : Nat) : (B.moveTo i).func = B.func := rfl

@[simp] theorem moveTo_block (B : Body) (i : Nat) : (B.moveTo i).block = i := rfl

@[simp] theorem moveTo_scopes (B : Body) (i : Nat) : (B.moveTo i).scopes = B.scopes := rfl

end Body

namespace Site

def recorder (S : Site) (B : Body) : Recorder :=
  ⟨S.start.target.functions.set S.id.index (some B.func) ++ B.declared.map Recorder.slot,
    some ⟨S.id, ⟨B.block⟩⟩⟩

def state (S : Site) (B : Body) : Lowering Recorder :=
  { S.start with target := S.recorder B, scopes := B.scopes, temporaries := B.temporaries }

variable (S : Site) (B : Body)

@[simp] theorem function?_recorder : (S.recorder B).function? S.id = some B.func := by
  have h := S.live
  simp only [Recorder.function?, recorder]
  rw [List.getElem?_append_left (by simpa using h)]
  simp [h]

theorem modifyFunction_recorder (g : Func → Func) :
    (S.recorder B).modifyFunction S.id g = S.recorder { B with func := g B.func } := by
  have h := S.live
  simp only [Recorder.modifyFunction, recorder, Recorder.mk.injEq, and_true]
  apply List.ext_getElem?
  intro i
  by_cases hi : i < S.start.target.functions.length
  · rw [List.getElem?_modify, List.getElem?_append_left (by simpa using hi),
      List.getElem?_append_left (by simpa using hi)]
    by_cases he : S.id.index = i
    · subst he
      simp [hi]
    · simp [he]
  · have he : S.id.index ≠ i := by omega
    rw [List.getElem?_modify, List.getElem?_append_right (by simpa using hi),
      List.getElem?_append_right (by simpa using hi)]
    simp [he]

theorem label_recorder (i : Nat) : (S.recorder B).label ⟨S.id, ⟨i⟩⟩ = B.func.labelAt i := by
  simp only [Recorder.label, Recorder.block?, function?_recorder, Option.bind_some]
  rfl

theorem state_self (F : Func) (b : Nat) (hF : S.start.target.function? S.id = some F)
    (hb : S.start.target.position = some ⟨S.id, ⟨b⟩⟩) :
    S.state ⟨F, b, S.start.scopes, S.start.temporaries, []⟩ = S.start := by
  have hset : S.start.target.functions.set S.id.index (some F) = S.start.target.functions := by
    apply List.ext_getElem?
    intro i
    rw [List.getElem?_set]
    split
    · rename_i he
      subst he
      simp only [Recorder.function?, Option.join_eq_some_iff] at hF
      rw [if_pos S.live, hF]
    · rfl
  simp only [state, recorder, hset, List.map_nil, List.append_nil, ← hb]

theorem emit_define {op : Op Value} {i : Reg → Instr}
    (h : Recorder.perform op (S.recorder B) = Recorder.define i (S.recorder B)) :
    emit op (S.state B) = .ok (.reg ⟨B.func.registers⟩)
      (S.state (B.write [i ⟨B.func.registers⟩] (B.func.registers + 1) [] [])) := by
  have hp : Recorder.perform op (S.recorder B) = .ok (.reg ⟨B.func.registers⟩)
      (S.recorder (B.write [i ⟨B.func.registers⟩] (B.func.registers + 1) [] [])) := by
    rw [h]
    have hn : (S.recorder B).nextReg ⟨S.id, ⟨B.block⟩⟩ = ⟨B.func.registers⟩ := by
      simp [Recorder.nextReg]
    show EStateM.Result.ok _ _ = _
    rw [hn, modifyFunction_recorder]
    simp [Body.write, recorder, Func.write, Func.append, Func.addRegister]
  exact emit_of_perform hp

theorem emit_push {op : Op Unit} {i : Instr}
    (h : Recorder.perform op (S.recorder B) = Recorder.push i (S.recorder B)) :
    emit op (S.state B) = .ok () (S.state (B.write [i] B.func.registers [] [])) := by
  have hp : Recorder.perform op (S.recorder B) = .ok ()
      (S.recorder (B.write [i] B.func.registers [] [])) := by
    rw [h]
    show EStateM.Result.ok _ _ = _
    rw [modifyFunction_recorder]
    simp [Body.write, recorder, Func.write, Func.append]
  exact emit_of_perform hp

theorem emit_load (p : Prim) (v : Value) :
    emit (.load p v) (S.state B) = .ok (.reg ⟨B.func.registers⟩)
    (S.state (B.write [.load ⟨B.func.registers⟩ p v] (B.func.registers + 1) [] [])) :=
  S.emit_define (i := fun r => .load r p v) B rfl

theorem emit_arith (op : Arith) (p : Prim) (v w : Value) :
    emit (.arith op p v w) (S.state B) = .ok (.reg ⟨B.func.registers⟩)
      (S.state (B.write [.arith ⟨B.func.registers⟩ op p v w] (B.func.registers + 1) [] [])) :=
  S.emit_define (i := fun r => .arith r op p v w) B rfl

theorem emit_compare (c : Predicate) (p : Prim) (v w : Value) :
    emit (.compare c p v w) (S.state B) = .ok (.reg ⟨B.func.registers⟩)
      (S.state (B.write [.compare ⟨B.func.registers⟩ c p v w] (B.func.registers + 1) [] [])) :=
  S.emit_define (i := fun r => .compare r c p v w) B rfl

theorem emit_cast (c : Cast) (v : Value) :
    emit (.cast c v) (S.state B) = .ok (.reg ⟨B.func.registers⟩)
    (S.state (B.write [.cast ⟨B.func.registers⟩ c v] (B.func.registers + 1) [] [])) :=
  S.emit_define (i := fun r => .cast r c v) B rfl

theorem emit_stackAlloc (p : Prim) (x : String) :
    emit (.stackAlloc p x) (S.state B) = .ok (.reg ⟨B.func.registers⟩)
      (S.state (B.write [.stackAlloc ⟨B.func.registers⟩ p x] (B.func.registers + 1) [] [])) :=
  S.emit_define (i := fun r => .stackAlloc r p x) B rfl

theorem emit_heapAlloc (p : Prim) (x : String) :
    emit (.heapAlloc p x) (S.state B) = .ok (.reg ⟨B.func.registers⟩)
      (S.state (B.write [.heapAlloc ⟨B.func.registers⟩ p x] (B.func.registers + 1) [] [])) :=
  S.emit_define (i := fun r => .heapAlloc r p x) B rfl

theorem emit_store (v w : Value) :
    emit (.store v w) (S.state B) =
      .ok () (S.state (B.write [.store v w] B.func.registers [] [])) :=
  S.emit_push B rfl

theorem emit_heapFree (v : Value) :
    emit (.heapFree v) (S.state B) =
      .ok () (S.state (B.write [.heapFree v] B.func.registers [] [])) :=
  S.emit_push B rfl

theorem emit_ret (v : Value) :
    emit (.ret v) (S.state B) = .ok () (S.state (B.write [.ret v] B.func.registers [] [])) :=
  S.emit_push B rfl

theorem emit_unreachable :
    emit .unreachable (S.state B) =
      .ok () (S.state (B.write [.unreachable] B.func.registers [] [])) :=
  S.emit_push B rfl

theorem emit_comment (text : String) :
    comment text (S.state B) = .ok () (S.state (B.write [.comment text] B.func.registers [] [])) :=
  S.emit_push B rfl

theorem emit_branch (i : Nat) : emit (.branch ⟨S.id, ⟨i⟩⟩) (S.state B) =
    .ok () (S.state (B.write [.branch (B.func.labelAt i)] B.func.registers [] [])) :=
  S.emit_push B (by rw [← label_recorder S B i]; rfl)

theorem emit_condBranch (v : Value) (i j : Nat) :
    emit (.condBranch v ⟨S.id, ⟨i⟩⟩ ⟨S.id, ⟨j⟩⟩) (S.state B) = .ok ()
      (S.state
        (B.write [.condBranch v (B.func.labelAt i) (B.func.labelAt j)] B.func.registers [] [])) :=
  S.emit_push B (by rw [← label_recorder S B i, ← label_recorder S B j]; rfl)

theorem emit_appendBlock (hint : String) : emit (.appendBlock S.id hint) (S.state B) =
    .ok ⟨S.id, ⟨B.func.blocks.length⟩⟩ (S.state (B.addBlock hint)) := by
  have hp : Recorder.perform (.appendBlock S.id hint) (S.recorder B) =
      .ok ⟨S.id, ⟨B.func.blocks.length⟩⟩ (S.recorder (B.addBlock hint)) := by
    simp only [Recorder.perform, Recorder.answer, Recorder.appendBlock, function?_recorder,
      modifyFunction_recorder]
    rfl
  exact emit_of_perform hp

theorem emit_positionAtEnd (i : Nat) :
    emit (.positionAtEnd ⟨S.id, ⟨i⟩⟩) (S.state B) = .ok () (S.state (B.moveTo i)) := rfl

end Site

/-- Whether the block that is written to ends in a terminator. -/
def Body.closed (B : Body) : Bool := (B.func.blocks[B.block]?).any BasicBlock.isTerminated

theorem Site.emit_isTerminated (S : Site) (B : Body) :
    emit .isTerminated (S.state B) = .ok B.closed (S.state B) := by
  have hp : (S.recorder B).isTerminated = B.closed := by
    simp only [Recorder.isTerminated, Body.closed]
    show ((S.recorder B).block? ⟨S.id, ⟨B.block⟩⟩).any _ = _
    simp [Recorder.block?]
  exact hp ▸ rfl

namespace Recorder

/-- The names of all functions that are not discarded. -/
def names (r : Recorder) : List String := r.functions.filterMap (Option.map Func.name)

theorem mem_names {r : Recorder} {name : String} :
    name ∈ r.names ↔ ∃ id F, r.function? id = some F ∧ F.name = name := by
  simp only [names, List.mem_filterMap, Option.map_eq_some_iff]
  constructor
  · rintro ⟨slot, hmem, F, rfl, rfl⟩
    obtain ⟨i, hi⟩ := List.getElem?_of_mem hmem
    exact ⟨⟨i⟩, F, by simp [function?, hi], rfl⟩
  · rintro ⟨id, F, hF, rfl⟩
    rw [function?, Option.join_eq_some_iff] at hF
    exact ⟨some F, List.mem_of_getElem? hF, F, rfl, rfl⟩

theorem find?_eq_none {r : Recorder} {name : String} : r.find? name = none ↔ name ∉ r.names := by
  simp only [find?, names, Option.map_eq_none_iff, List.findIdx?_eq_none_iff, List.mem_filterMap,
    Option.map_eq_some_iff]
  constructor
  · rintro h ⟨slot, hmem, F, rfl, hF⟩
    simpa [hF] using h _ hmem
  · intro h slot hmem
    cases slot with
    | none => rfl
    | some F => simpa using fun he => h ⟨_, hmem, F, rfl, he⟩

theorem function?_of_find? {r : Recorder} {name : String} {id : FunctionId}
    (h : r.find? name = some id) :
    ∃ F, r.function? id = some F ∧ F.name = name := by
  simp only [find?, Option.map_eq_some_iff] at h
  obtain ⟨i, hi, rfl⟩ := h
  obtain ⟨hlt, hp, -⟩ := List.findIdx?_eq_some_iff_getElem.1 hi
  obtain ⟨F, hF, hname⟩ := (Option.any_eq_true _ _).1 hp
  exact ⟨F, by simp [function?, List.getElem?_eq_getElem hlt, hF], by simpa using hname⟩

end Recorder

/-- A known function is found in the target, or declared there. -/
theorem functionHandle_ok {s : Lowering Recorder} {name : String} {signature : Signature}
    (h : s.signatures.find? name = some signature) (pos : Nat) :
    functionHandle pos name s = match s.target.find? name with
      | some g => .ok g s
      | none =>
        .ok ⟨s.target.functions.length⟩
          { s with target := (s.target.declare name signature).2 } := by
  have hget : emit (.getFunction name) s = .ok (s.target.find? name) s := rfl
  unfold functionHandle
  rw [bind_of_ok hget]
  cases s.target.find? name with
  | some g => rfl
  | none =>
    have hsig : signatureOf pos name s = .ok signature s := by simp only [signatureOf, h]
    refine (bind_of_ok hsig).trans ?_
    exact emit_of_perform rfl

namespace Site

variable (S : Site) (B : Body)

/-- The declaration that a call has to add: none if the callee is in the target already. -/
def missing (name : String) (signature : Signature) : List (String × Signature) :=
  if name ∈ (S.recorder B).names then [] else [(name, signature)]

theorem recorder_declare (d : String × Signature) :
    S.recorder (B.write [] B.func.registers [] [d]) =
      { S.recorder B with functions := (S.recorder B).functions ++ [Recorder.slot d] } := by
  simp [recorder, Body.write, Func.write_nil]

theorem functionHandle_state {name : String} {signature : Signature}
    (h : S.start.signatures.find? name = some signature) (pos : Nat) :
    ∃ g G, functionHandle pos name (S.state B) =
        .ok g (S.state (B.write [] B.func.registers [] (S.missing B name signature))) ∧
      (S.recorder (B.write [] B.func.registers [] (S.missing B name signature))).function? g =
        some G ∧
      G.name = name := by
  have hhandle := functionHandle_ok (s := S.state B) h pos
  rw [show (S.state B).target = S.recorder B from rfl] at hhandle
  cases hf : (S.recorder B).find? name with
  | some g =>
    obtain ⟨G, hG, hname⟩ := Recorder.function?_of_find? hf
    have hin : name ∈ (S.recorder B).names := Recorder.mem_names.2 ⟨g, G, hG, hname⟩
    rw [hf] at hhandle
    exact ⟨g, G, by simpa [missing, hin] using hhandle, by simpa [missing, hin] using hG, hname⟩
  | none =>
    have hin : name ∉ (S.recorder B).names := Recorder.find?_eq_none.1 hf
    rw [hf] at hhandle
    refine ⟨⟨(S.recorder B).functions.length⟩, ⟨name, signature, [], 0⟩, ?_, ?_, rfl⟩
    · rw [hhandle, missing, if_neg hin]
      simp only [state, recorder_declare]
      rfl
    · rw [missing, if_neg hin, recorder_declare]
      simp [Recorder.function?, Recorder.slot]

theorem pushTemporary_state (v : Value) :
    pushTemporary v (S.state B) = .ok () (S.state (B.write [] B.func.registers [v] [])) := by
  simp [pushTemporary, state, recorder, Body.write, Func.write_nil]

/-- A call writes one instruction; a heap cell that comes back becomes a temporary. -/
theorem call_state {callee : String} {signature : Signature}
    (h : S.start.signatures.find? callee = some signature) (pos : Nat) (ret : Ty)
    (args : List Value) :
    Lower.call pos callee ret args (S.state B) = .ok ⟨.reg ⟨B.func.registers⟩, .ofTy ret⟩
      (S.state (B.write [.call ⟨B.func.registers⟩ callee args] (B.func.registers + 1)
        (if ret.isPointer then [.reg ⟨B.func.registers⟩] else [])
          (S.missing B callee signature))) := by
  obtain ⟨g, G, hg, hG, rfl⟩ := S.functionHandle_state B h pos
  unfold Lower.call
  rw [bind_of_ok hg]
  have hcall := S.emit_define (B.write [] B.func.registers [] (S.missing B G.name signature))
    (i := fun r => .call r G.name args)
      (show Recorder.perform (.call g args) _ = _ by simp [Recorder.perform, hG])
  rw [bind_of_ok hcall]
  cases ret with
  | plain p => simp [Ty.isPointer, pure_apply]
  | pointer p =>
    show (pushTemporary _ >>= fun _ => pure _) (S.state _) = _
    rw [bind_of_ok (S.pushTemporary_state _ _)]
    simp [Ty.isPointer, pure_apply]

end Site

end ImpFront
