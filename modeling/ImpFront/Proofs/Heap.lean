import Mathlib
import ImpFront.Proofs.Shape

/-! Walks through the blocks of a function, and the heap cells that a walk owns. A cell is known by
the register that it was allocated or returned into. Safety of code is stated with a bound on the
number of steps, so that loops can be dealt with by induction on the bound. -/

namespace ImpFront

/-- The stack slots and the owned heap cells behind some instructions. -/
structure Holdings where
  slots : Finset Reg
  live : Finset Reg

/-- The register of the heap cell that comes into the function's hands: fresh, or returned by a
function whose recorded return type is a pointer. -/
def Module.acquired? (m : Module) : Instr → Option Reg
  | .heapAlloc dst _ _ => some dst
  | .call dst callee _ =>
    if (m.function? callee).any fun f => f.signature.ret.isPointer then some dst else none
  | _ => none

namespace Holdings

def step (m : Module) (h : Holdings) (i : Instr) : Holdings where
  slots := match i with
    | .stackAlloc dst _ _ => insert dst h.slots
    | _ => h.slots
  live := match i with
    | .heapFree (.reg r) => h.live.erase r
    | i => (m.acquired? i).toFinset ∪ h.live

def after (m : Module) (done : List Instr) : Holdings := done.foldl (step m) ⟨∅, ∅⟩

end Holdings

/-- Where control may go on after an instruction that `todo` follows in its block. -/
inductive Func.Next (F : Func) : Instr → List Instr → List Instr → Prop
  | step {i : Instr} {todo : List Instr} : i.isTerminator = false → F.Next i todo todo
  | branch {l : String} {todo : List Instr} {B : BasicBlock} :
      F.block? l = some B → F.Next (.branch l) todo B.code
  | yes {v : Value} {l l' : String} {todo : List Instr} {B : BasicBlock} :
      F.block? l = some B → F.Next (.condBranch v l l') todo B.code
  | no {v : Value} {l l' : String} {todo : List Instr} {B : BasicBlock} :
      F.block? l' = some B → F.Next (.condBranch v l l') todo B.code

/-- A walk from the first block: the instructions behind it, and what is left of the block it is
in. -/
inductive Func.Walk (F : Func) : List Instr → List Instr → Prop
  | entry {B : BasicBlock} : F.blocks.head? = some B → F.Walk [] B.code
  | next {done todo todo' : List Instr} {i : Instr} :
      F.Walk done (i :: todo) → F.Next i todo todo' → F.Walk (done ++ [i]) todo'

/-- What memory may be accessed through: a stack slot, an owned cell or a pointer parameter. -/
def Func.Address (F : Func) (h : Holdings) (v : Value) : Prop :=
  (∃ r, v = .reg r ∧ (r ∈ h.slots ∨ r ∈ h.live)) ∨
    ∃ index p, F.signature.params[index]? = some (.pointer p) ∧ v = paramValue index

/-- Whether an instruction may stand between the read of a returned local and the return itself. -/
def Instr.trails : Instr → Bool
  | .cast .. | .heapFree _ => true
  | _ => false

/-- The walk has come through a lowered `return x` where the local `x` owned the cell `r`: what the
cell holds was read and converted, and other cells were released. -/
def Module.ReturnsLocal (m : Module) (done : List Instr) (r : Reg) : Prop :=
  ∃ pre x dst p post,
    done = pre ++ .comment ((Stmt.ret 0 (.var 0 x)).printAt 0) :: .load dst p (.reg r) :: post ∧
    .heapAlloc r p x ∈ pre ∧ r ∈ (Holdings.after m pre).live ∧ ∀ i ∈ post, i.trails = true

/-- But for conversions and releases, the last instruction read the cell `r`. `P` tells of the walk
before it and of what the cell holds. -/
def LastRead (r : Reg) (P : List Instr → Prim → Prop) (done : List Instr) : Prop :=
  ∃ pre dst p post, done = pre ++ .load dst p (.reg r) :: post ∧ P pre p ∧ ∀ i ∈ post,
    i.trails = true

/-- What is left of a lowered `return x` in code without comments: a cell that the function itself
allocated was read last. -/
def Module.ReadsLocal (m : Module) (done : List Instr) (r : Reg) : Prop :=
  LastRead r (fun pre p => (∃ x, .heapAlloc r p x ∈ pre) ∧ r ∈ (Holdings.after m pre).live) done

/-- The rules for the heap, for one instruction behind a walk. Only a cell that is `lost` may be
left behind by a plain return, and it is. -/
def Func.Rules (F : Func) (m : Module) (lost : Reg → Prop) (done : List Instr) : Instr → Prop
  | .heapAlloc dst _ _ => dst ∉ (Holdings.after m done).live
  | .heapFree v => ∃ r ∈ (Holdings.after m done).live, v = .reg r
  | .load _ _ v => F.Address (Holdings.after m done) v
  | .store _ v => F.Address (Holdings.after m done) v
  | .call dst callee args => ∃ G, m.function? callee = some G ∧
      (G.signature.ret.isPointer = true → dst ∉ (Holdings.after m done).live) ∧
      List.Forall₂ (fun v ty => ty.isPointer = true → F.Address (Holdings.after m done) v) args
        G.signature.params
  | .ret v => match F.signature.ret with
    | .pointer _ => ∃ r, v = .reg r ∧ (Holdings.after m done).live = {r}
    | .plain _ => (∀ r, lost r → (Holdings.after m done).live = {r}) ∧
      ((∀ r, ¬lost r) → (Holdings.after m done).live = ∅)
  | .unreachable => (Holdings.after m done).live = ∅
  | _ => True

/-- The rules where comments are recorded. -/
def Func.Disciplined (F : Func) (m : Module) (done : List Instr) (i : Instr) : Prop :=
  F.Rules m (m.ReturnsLocal done) done i

def uncommented (is : List Instr) : List Instr := is.filter fun i => !i.isComment

/-- At a plain return, a cell that was read last is that of a returned local, comments or not,
unless it came from a call. -/
def Func.Legible (F : Func) (m : Module) (done : List Instr) : Instr → Prop
  | .ret _ => F.signature.ret.isPointer = false → ∀ r, m.ReadsLocal (uncommented done) r →
      m.ReturnsLocal done r ∨ ∃ callee args, .call r callee args ∈ F.code
  | _ => True

/-- The next `n` instructions on every path keep the rules. -/
def Func.Safe (F : Func) (m : Module) : Nat → List Instr → List Instr → Prop
  | 0, _, _ => True
  | _ + 1, _, [] => True
  | n + 1, done, i :: todo =>
    (F.Disciplined m done i ∧ F.Legible m done i) ∧
      ∀ todo', F.Next i todo todo' → F.Safe m n (done ++ [i]) todo'

/-- Straight code that keeps the rules. -/
def Func.Straight (F : Func) (m : Module) : List Instr → List Instr → Prop
  | _, [] => True
  | done, i :: is =>
    (i.isTerminator = false ∧ F.Disciplined m done i) ∧ F.Straight m (done ++ [i]) is

variable {F : Func} {m : Module} {done : List Instr}

theorem safe_of_walk {todo : List Instr} (h : F.Walk done todo)
    (hentry : ∀ B n, F.blocks.head? = some B → F.Safe m n [] B.code) :
    ∀ n, F.Safe m n done todo := by
  induction h with
  | entry hB => exact fun n => hentry _ n hB
  | next _ hnext ih => exact fun n => (ih (n + 1)).2 _ hnext

namespace Holdings

theorem after_append (m : Module) (done : List Instr) (i : Instr) :
    after m (done ++ [i]) = (after m done).step m i := by
  simp [after]

theorem step_data {i : Instr} (h : Holdings) (hi : i.isData = true) : h.step m i = h := by
  cases i with
  | load | arith | compare | cast =>
    simp only [step, Module.acquired?, Option.toFinset_none, Finset.empty_union]
  | _ => simp [Instr.isData] at hi

/-- Instructions that neither allocate nor release anything. -/
theorem after_data (m : Module) (done : List Instr) {is : List Instr}
    (h : ∀ i ∈ is, i.isData = true) : after m (done ++ is) = after m done := by
  induction is generalizing done with
  | nil => simp
  | cons i is ih =>
    obtain ⟨hi, his⟩ := List.forall_mem_cons.1 h
    rw [List.append_cons, ih _ his, after_append, step_data _ hi]

theorem after_comment (text : String) : after m (done ++ [.comment text]) = after m done := by
  simp [after_append, step, Module.acquired?]

theorem after_store (v w : Value) : after m (done ++ [.store v w]) = after m done := by
  simp [after_append, step, Module.acquired?]

theorem after_free (m : Module) (done : List Instr) (r : Reg) :
    after m (done ++ [.heapFree (.reg r)]) =
      ⟨(after m done).slots, (after m done).live.erase r⟩ := by
  simp [after_append, step]

theorem after_acquired {i : Instr} {r : Reg} (h : m.acquired? i = some r) :
    after m (done ++ [i]) = ⟨(after m done).slots, insert r (after m done).live⟩ := by
  rw [after_append]
  cases i with
  | heapAlloc | call =>
    simp only [step, h]
    rfl
  | _ => simp [Module.acquired?] at h

/-- Nothing is given up. -/
def Le (h h' : Holdings) : Prop := h.slots ⊆ h'.slots ∧ h.live ⊆ h'.live

theorem Le.refl (h : Holdings) : h.Le h := ⟨subset_rfl, subset_rfl⟩

theorem Le.trans {h h' h'' : Holdings} (h₁ : h.Le h') (h₂ : h'.Le h'') : h.Le h'' :=
  ⟨h₁.1.trans h₂.1, h₁.2.trans h₂.2⟩

end Holdings

theorem Func.Address.mono {h h' : Holdings} {v : Value} (hv : F.Address h v) (hle : h.Le h') :
    F.Address h' v := by
  rcases hv with ⟨r, rfl, hr | hr⟩ | hparam
  · exact .inl ⟨r, rfl, .inl (hle.1 hr)⟩
  · exact .inl ⟨r, rfl, .inr (hle.2 hr)⟩
  · exact .inr hparam

theorem Func.Legible.of_step {i : Instr} (hi : i.isTerminator = false) : F.Legible m done i := by
  cases i with
  | ret => simp [Instr.isTerminator] at hi
  | _ => trivial

namespace Func.Straight

theorem append {is js : List Instr} (h : F.Straight m done is) (h' : F.Straight m (done ++ is) js) :
    F.Straight m done (is ++ js) := by
  induction is generalizing done with
  | nil => simpa using h'
  | cons i is ih => exact ⟨h.1, ih h.2 (by simpa using h')⟩

theorem single {i : Instr} (ht : i.isTerminator = false) (hi : F.Disciplined m done i) :
    F.Straight m done [i] :=
  ⟨⟨ht, hi⟩, trivial⟩

/-- Straight code is followed by whatever is safe behind it. -/
theorem safe {is todo : List Instr} {n : Nat} (h : F.Straight m done is)
    (hk : ∀ n', n' ≤ n → F.Safe m n' (done ++ is) todo) : F.Safe m n done (is ++ todo) := by
  induction is generalizing done n with
  | nil => simpa using hk n le_rfl
  | cons i is ih =>
    cases n with
    | zero => trivial
    | succ n =>
      refine ⟨⟨h.1.2, .of_step h.1.1⟩, fun todo' hnext => ?_⟩
      cases hnext with
      | step => exact ih h.2 fun n' hn' => by simpa using hk n' (by omega)
      | branch | yes | no => exact absurd h.1.1 (by simp [Instr.isTerminator])

end Func.Straight

section Uncommented

@[simp] theorem uncommented_nil : uncommented [] = [] := rfl

@[simp] theorem uncommented_append (is js : List Instr) :
    uncommented (is ++ js) = uncommented is ++ uncommented js :=
  List.filter_append ..

@[simp] theorem uncommented_comment (text : String) (is : List Instr) :
    uncommented (.comment text :: is) = uncommented is :=
  rfl

theorem uncommented_single {i : Instr} (hi : i.isComment = false) : uncommented [i] = [i] :=
  List.filter_eq_self.2 (by simpa using hi)

theorem uncommented_of_trails {is : List Instr} (h : ∀ i ∈ is, i.trails = true) :
    uncommented is = is := by
  refine List.filter_eq_self.2 fun i hi => ?_
  cases i with
  | comment => exact absurd (h _ hi) (by simp [Instr.trails])
  | _ => rfl

theorem trails_of_mem_freeCode {vs : List Value} : ∀ i ∈ freeCode vs, i.trails = true := by
  simp [freeCode, Instr.trails]

@[simp] theorem uncommented_settleCode (vs : List Value) :
    uncommented (settleCode vs) = freeCode vs := by
  unfold settleCode
  split <;> simp [uncommented_of_trails trails_of_mem_freeCode]

@[simp] theorem uncommented_leaveCode (vs : List Value) :
    uncommented (leaveCode vs) = freeCode vs := by
  unfold leaveCode
  split <;> simp [uncommented_of_trails trails_of_mem_freeCode]

theorem Holdings.after_uncommented (m : Module) (done : List Instr) :
    after m (uncommented done) = after m done := by
  induction done using List.reverseRecOn with
  | nil => rfl
  | append_singleton done i ih =>
    cases hi : i.isComment with
    | false => rw [uncommented_append, uncommented_single hi, after_append, after_append, ih]
    | true =>
      cases i with
      | comment text => simpa [after_comment] using ih
      | _ => cases hi

end Uncommented

section LastRead

variable {r : Reg} {P : List Instr → Prim → Prop}

/-- The last instruction is the read itself, or stands behind it. -/
theorem lastRead_concat {i : Instr} :
    LastRead r P (done ++ [i]) ↔
      (∃ dst p, i = .load dst p (.reg r) ∧ P done p) ∨ (i.trails = true ∧ LastRead r P done) := by
  constructor
  · rintro ⟨pre, dst, p, post, hdone, hP, hpost⟩
    rcases post.eq_nil_or_concat with rfl | ⟨post, j, rfl⟩
    · obtain ⟨rfl, hi⟩ := List.append_inj' hdone rfl
      cases hi
      exact .inl ⟨dst, p, rfl, hP⟩
    · rw [List.concat_eq_append, ← List.cons_append, ← List.append_assoc] at hdone
      obtain ⟨hpre, hi⟩ := List.append_inj' hdone rfl
      cases hi
      exact .inr ⟨hpost _ (by simp), pre, dst, p, post, hpre, hP,
        fun i hi => hpost i (by simp [hi])⟩
  · rintro (⟨dst, p, rfl, hP⟩ | ⟨hi, pre, dst, p, post, rfl, hP, hpost⟩)
    · exact ⟨done, dst, p, [], rfl, hP, by simp⟩
    · exact ⟨pre, dst, p, post ++ [i], by simp, hP,
        List.forall_mem_append.2 ⟨hpost, by simpa using hi⟩⟩

theorem lastRead_append {is : List Instr} (h : ∀ i ∈ is, i.trails = true) :
    LastRead r P (done ++ is) ↔ LastRead r P done := by
  induction is generalizing done with
  | nil => simp
  | cons i is ih =>
    obtain ⟨hi, his⟩ := List.forall_mem_cons.1 h
    rw [List.append_cons, ih his, lastRead_concat]
    constructor
    · rintro (⟨_, _, rfl, _⟩ | ⟨_, hr⟩)
      · simp [Instr.trails] at hi
      · exact hr
    · exact fun hr => .inr ⟨hi, hr⟩

/-- Any other instruction ends the trail. -/
theorem not_lastRead_concat {i : Instr} (hload : ∀ dst p v, i ≠ .load dst p v)
    (hi : i.trails = false) : ¬LastRead r P (done ++ [i]) := by
  rw [lastRead_concat]
  rintro (⟨_, _, rfl, _⟩ | ⟨hi', -⟩)
  · exact hload _ _ _ rfl
  · simp [hi] at hi'

/-- The return of a local, with the comment that tells it, is a read of its own cell. -/
theorem returnsLocal_iff_lastRead :
    m.ReturnsLocal done r ↔
      LastRead r (fun pre p => ∃ before x,
        pre = before ++ [.comment ((Stmt.ret 0 (.var 0 x)).printAt 0)] ∧
        .heapAlloc r p x ∈ before ∧ r ∈ (Holdings.after m before).live) done := by
  constructor
  · rintro ⟨pre, x, dst, p, post, rfl, hcell, hlive, hpost⟩
    exact ⟨_, dst, p, post, List.append_cons .., ⟨pre, x, rfl, hcell, hlive⟩, hpost⟩
  · rintro ⟨_, dst, p, post, rfl, ⟨pre, x, rfl, hcell, hlive⟩, hpost⟩
    exact ⟨pre, x, dst, p, post, (List.append_cons ..).symm, hcell, hlive, hpost⟩

end LastRead

end ImpFront
