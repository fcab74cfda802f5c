import Mathlib
import ImpFront.Proofs.ControlFlow
import ImpFront.Proofs.Simulation

/-! Lowering preserves meaning: a definition that is lowered gives, run by its code, what it gives
by itself. The code begins with a new block behind those that the function has already. So it is run
from the first block on if there are none, and else it is never reached from there. -/

namespace ImpFront

variable {W : World} {args : List Datum} {F : Func} {s s' s'' : Machine} {n n' n'' : Nat}
  {is js k k' k'' : List Instr} {sc sc' : Scopes Value} {env : Env} {Γ : Signatures}

def Func.Ends (F : Func) (W : World) (args : List Datum) (s : Machine) (k : List Instr) (v : Datum)
    (m : Memory) : Prop :=
  ∃ fuel, F.exec W args fuel s k = some (v, m)

/-- A run at `k` gets to `k'`. -/
def Func.Reaches (F : Func) (W : World) (args : List Datum) (s : Machine) (k : List Instr)
    (s' : Machine) (k' : List Instr) : Prop :=
  ∀ v m, F.Ends W args s' k' v m → F.Ends W args s k v m

namespace Func.Reaches

theorem trans (h : F.Reaches W args s k s' k') (h' : F.Reaches W args s' k' s'' k'') :
    F.Reaches W args s k s'' k'' :=
  fun v m he => h v m (h' v m he)

theorem step {i : Instr} (h : s.step? W args i = some s') : F.Reaches W args s (i :: k) s' k := by
  rintro v m ⟨fuel, hexec⟩
  refine ⟨fuel + 1, ?_⟩
  cases i with
  | branch | condBranch | ret | unreachable => simp [Machine.step?] at h
  | _ => simpa only [Func.exec, h, Option.bind_eq_bind, Option.bind_some] using hexec

theorem steps (h : s.steps? W args is = some s') : F.Reaches W args s (is ++ k) s' k := by
  induction is generalizing s with
  | nil =>
    cases h
    exact fun _ _ he => he
  | cons i is ih =>
    obtain ⟨s₁, hstep, hrest⟩ := Option.bind_eq_some_iff.1 h
    exact (step hstep).trans (ih hrest)

/-- The code of a statement follows a comment. -/
theorem commented {text : String} (h : s.Goes W args is n s') :
    F.Reaches W args s (.comment text :: (is ++ k)) s' k :=
  (step rfl).trans (steps h.steps)

theorem branch {l : String} {B : BasicBlock} (hB : F.block? l = some B) :
    F.Reaches W args s (.branch l :: k) s B.code := by
  rintro v m ⟨fuel, hexec⟩
  exact ⟨fuel + 1, by simpa [Func.exec, hB] using hexec⟩

theorem condBranch {c : Value} {b : Bool} {l l' : String} {B : BasicBlock}
    (hc : s.operand args c = some (.bool b)) (hB : F.block? (if b then l else l') = some B) :
    F.Reaches W args s (.condBranch c l l' :: k) s B.code := by
  rintro v m ⟨fuel, hexec⟩
  exact ⟨fuel + 1, by simpa [Func.exec, hc, hB] using hexec⟩

end Func.Reaches

theorem ends_ret {v : Value} {x : Datum} (hv : s.operand args v = some x) :
    F.Ends W args s (.ret v :: k) x s.memory :=
  ⟨1, by simp [Func.exec, hv]⟩

theorem goes_comment (s : Machine) (n : Nat) (text : String) : s.Goes W args [.comment text] n s :=
  .single (m := s.memory) n rfl

theorem goes_free {vs : List Value} (h : HoldCells args s n vs) (n' : Nat) :
    s.Goes W args (freeCode vs) n' s := by
  induction vs with
  | nil => exact .nil s n'
  | cons v vs ih =>
    obtain ⟨⟨a, ha⟩, hrest⟩ := List.forall_mem_cons.1 h
    have hfree : s.Goes W args [.heapFree v] n' s :=
      .single (m := s.memory) n' (by simp [Machine.step?, ha.value])
    exact hfree.trans (ih hrest) le_rfl

theorem goes_settle {vs : List Value} (h : HoldCells args s n vs) (n' : Nat) :
    s.Goes W args (settleCode vs) n' s := by
  unfold settleCode
  split
  · exact goes_free h n'
  · exact (goes_comment s n' _).trans (goes_free h n') le_rfl

theorem goes_leave {vs : List Value} (h : HoldCells args s n vs) (n' : Nat) :
    s.Goes W args (leaveCode vs) n' s := by
  unfold leaveCode
  split
  · exact goes_free h n'
  · exact (goes_comment s n' _).trans (goes_free h n') le_rfl

theorem Matches.bound (h : Matches args s n sc env) {d : String × Local Value}
    (hd : d ∈ sc.flatten) :
    ∃ b, Bound args s n d b := by
  unfold Matches at h
  generalize sc.flatten = ds at h hd
  induction h with
  | nil => cases hd
  | cons hb _ ih =>
    rcases List.mem_cons.1 hd with rfl | hd
    · exact ⟨_, hb⟩
    · exact ih hd

theorem Matches.holdCells (h : Matches args s n sc env) (spared : Option (Nat × String)) :
    HoldCells args s n (sc.releases spared) := by
  intro v hv
  obtain ⟨d, hd, hheap, rfl⟩ :=
    Scopes.mem_releases_none.1 ((Scopes.releases_sublist spared sc).subset hv)
  obtain ⟨b, hb⟩ := h.bound hd
  obtain ⟨a, ha⟩ := hb.cell hheap
  exact ⟨a, ha ▸ hb.holds⟩

theorem Matches.holdFrame {f : Frame Value} (h : Matches args s n (f :: sc) env) :
    HoldCells args s n f.handles := by
  intro v hv
  refine h.holdCells none v ?_
  rw [Scopes.releases_none, List.flatMap_cons]
  exact List.mem_append_left _ hv

theorem Matches.enter (h : Matches args s n sc env) : Matches args s n ([] :: sc) env := h

/-- The code makes the storage of a declaration. -/
theorem Matches.declare {f : Frame Value} (h : Matches args s n (f :: sc) env) (W : World)
    (x : String) (ty : Ty) :
    ∃ s', s.Goes W args [ty.allocInstr ⟨n⟩ x] n s' ∧ s'.memory = (s.memory.allocate W ty).2 ∧
      Matches args s' (n + 1) (((x, ⟨.reg ⟨n⟩, ty, ty.isPointer⟩) :: f) :: sc)
        ((x, ty, (s.memory.allocate W ty).1) :: env) := by
  cases ty with
  | plain p =>
    have hgoes : s.Goes W args [.stackAlloc ⟨n⟩ p x] n _ := .define rfl
    refine ⟨_, hgoes, rfl, .cons ⟨rfl, rfl, .defined args _ _ _, by simp [Ty.isPointer]⟩ ?_⟩
    exact h.keep hgoes.keeps (Nat.le_succ n)
  | pointer p =>
    have hgoes : s.Goes W args [.heapAlloc ⟨n⟩ p x] n _ := .define rfl
    refine ⟨_, hgoes, rfl, .cons ⟨rfl, rfl, .defined args _ _ _, fun _ => ⟨_, rfl⟩⟩ ?_⟩
    exact h.keep hgoes.keeps (Nat.le_succ n)

theorem DeclareCode.runs {ty : Ty} {xs : List String} (h : DeclareCode ty sc xs n is sc' n')
    (hm : Matches args s n sc env) :
    ∃ s', s.Goes W args is n s' ∧ s'.memory = (Env.declare W ty xs env s.memory).2 ∧
      Matches args s' n' sc' (Env.declare W ty xs env s.memory).1 := by
  induction h generalizing s env with
  | nil => exact ⟨s, .nil s _, rfl, hm⟩
  | @cons frame sc sc' x xs n n' is _ _ ih =>
    obtain ⟨s₁, hgoes, hmem, hm₁⟩ := hm.declare W x ty
    obtain ⟨s₂, hrest, hend⟩ := ih hm₁
    rw [hmem] at hend
    exact ⟨s₂, hgoes.trans hrest (Nat.le_succ n), hend⟩

theorem AssignCode.runs {x : String} {e : Expr} {l : Ty × Datum} {y z c : Datum} {t : ValTy}
    {m m' : Memory} (h : AssignCode Γ sc x e n is n') (hm : Matches args s n sc env)
    (hl : env.lookup x = some l) (heval : e.eval W Γ.find? env s.memory = some (y, t, m))
    (hcoerce : coerce? W m y t l.1 = some z) (hcontent : content? m z l.1 = some c)
    (hwrite : m.write? c l.2 = some m') :
    ∃ s', s.Goes W args is n s' ∧ s'.memory = m' := by
  cases h with
  | @mk i l _ n₁ n₂ _ is js ks t v w ts hlocal he hc hk =>
    obtain ⟨a, ha, hstorage, -⟩ := hm.lookup hlocal
    rw [hl] at ha
    cases ha
    obtain ⟨s₁, g₁, rfl, rfl, v₁, c₁⟩ := he.runs hm heval
    obtain ⟨s₂, g₂, m₂, v₂⟩ := hc.computes v₁ hcoerce
    obtain ⟨s₃, g₃, m₃, v₃⟩ := hk.computes (W := W) v₂ (m₂ ▸ hcontent)
    have g := (g₁.trans g₂ he.le).trans g₃ (he.le.trans hc.le)
    have hstore : s₃.Goes W args [.store w l.storage] n { s₃ with memory := m' } := by
      refine .single n ?_
      simp [Machine.step?, v₃.value, (hstorage.keep g.keeps).value, m₃, m₂, hwrite]
    have hcells : HoldCells args { s₃ with memory := m' } n' ts :=
      ((c₁.keep g₂.keeps hc.le).keep g₃.keeps hk.le).keep (fun _ _ => rfl) le_rfl
    exact ⟨_, (g.trans hstore le_rfl).trans (goes_settle hcells n) le_rfl, rfl⟩

theorem TestCode.runs {e : Expr} {v : Value} {b : Bool} {m : Memory} (h : TestCode Γ sc e n is v n')
    (hm : Matches args s n sc env) (htest : e.test W Γ.find? env s.memory = some (b, m)) :
    ∃ s', s.Goes W args is n s' ∧ s'.memory = m ∧ s'.operand args v = some (.bool b) := by
  simp only [Expr.test, Option.bind_eq_bind, Option.bind_eq_some_iff, Prod.exists, Option.pure_def,
    Option.some.injEq, Prod.mk.injEq] at htest
  obtain ⟨x, t, m, heval, b, htruth, rfl, rfl⟩ := htest
  cases h with
  | mk he hc =>
    obtain ⟨s₁, g₁, rfl, rfl, v₁, c₁⟩ := he.runs hm heval
    obtain ⟨s₂, g₂, m₂, v₂⟩ := hc.computes v₁ htruth
    exact ⟨s₂, (g₁.trans g₂ he.le).trans (goes_settle (c₁.keep g₂.keeps hc.le) n) le_rfl, m₂,
      v₂.value⟩

/-- The result of a run of code agrees with that of the tree: the same plain data and heap, or a
heap cell with this content, where the heap may have grown by the cell. -/
def Delivers (v : Datum) (heap : List Datum) (w : Datum) (heap' : List Datum) : Ty → Prop
  | .plain _ => w = v ∧ heap' = heap
  | .pointer _ => heap <+: heap' ∧ ∃ a, w = .cell a ∧ heap'[a]? = some v

namespace Memory

variable {m : Memory} {p : Prim} {a c : Datum}

theorem content?_of_read? (h : m.read? p a = some c) : m.content? a = some c :=
  (Option.filter_eq_some_iff.1 h).1

theorem read?_pushCell (h : m.read? p a = some c) (v : Datum) :
    (m.pushCell v).2.read? p a = some c := by
  obtain ⟨hcontent, hprim⟩ := Option.filter_eq_some_iff.1 h
  refine Option.filter_eq_some_iff.2 ⟨?_, hprim⟩
  cases a with
  | cell k =>
    have hlt : k < m.heap.length := (List.getElem?_eq_some_iff.1 hcontent).1
    simpa [content?, pushCell, List.getElem?_append_left hlt] using hcontent
  | slot => exact hcontent
  | int | double | bool => cases hcontent

theorem write?_pushCell (m : Memory) (v c : Datum) :
    (m.pushCell v).2.write? c (m.pushCell v).1 = some (m.pushCell c).2 := by
  simp [write?, pushCell]

theorem write?_pushSlot (m : Memory) (v c : Datum) :
    (m.pushSlot v).2.write? c (m.pushSlot v).1 = some (m.pushSlot c).2 := by
  simp [write?, pushSlot]

end Memory

/-- The cell behind a pointer is handed out as it is. -/
theorem delivers_cell {p : Prim} {v : Value} {z c : Datum} {a : Nat} (hv : s.Holds args n v z)
    (ha : s.Holds args n v (.cell a)) (hc : s.memory.read? p z = some c) :
    Delivers c s.memory.heap z s.memory.heap (.pointer p) := by
  have hz : some z = some (.cell a) := hv.value.symm.trans ha.value
  cases hz
  exact ⟨List.prefix_rfl, a, rfl, Memory.content?_of_read? hc⟩

/-- A pointer that is not the function's own is copied to a new cell. -/
theorem goes_copy {p : Prim} {v : Value} {z c : Datum} (hv : s.Holds args n v z)
    (hc : s.memory.read? p z = some c) :
    ∃ s', s.Goes W args [.heapAlloc ⟨n⟩ p "result", .load ⟨n + 1⟩ p v,
      .store (.reg ⟨n + 1⟩) (.reg ⟨n⟩)] n s' ∧
      s'.operand args (.reg ⟨n⟩) = some (.cell s.memory.heap.length) ∧
      s'.memory = (s.memory.pushCell c).2 := by
  obtain ⟨⟨a, m⟩, hpush⟩ : ∃ cell, cell = s.memory.pushCell (W.fresh s.memory p) := ⟨_, rfl⟩
  have hwrite := Memory.write?_pushCell s.memory (W.fresh s.memory p) c
  have hread := Memory.read?_pushCell hc (W.fresh s.memory p)
  rw [← hpush] at hwrite hread
  have halloc : s.Goes W args [.heapAlloc ⟨n⟩ p "result"] n ({ s with memory := m }.set ⟨n⟩ a) :=
    .define (by simp [Machine.step?, ← hpush])
  have hcell := Machine.Holds.defined args { s with memory := m } n a
  obtain ⟨s₂, g₂, m₂, v₂⟩ :=
    Machine.Computes.load (W := W) ((hv.keep halloc.keeps).mono (Nat.le_succ n)) hread
  have hcell₂ := hcell.keep g₂.keeps
  have hstore : s₂.Goes W args [.store (.reg ⟨n + 1⟩) (.reg ⟨n⟩)] n
      { s₂ with memory := (s.memory.pushCell c).2 } :=
    .single n (by simp [Machine.step?, v₂.value, hcell₂.value, m₂, hwrite])
  refine ⟨_, (halloc.trans g₂ (Nat.le_succ n)).trans hstore le_rfl, hcell₂.value.trans ?_, rfl⟩
  exact congrArg (fun cell => some cell.1) hpush

theorem ReturnCode.runs {ret : Ty} {e : Expr} {v : Value} {y z c : Datum} {t : ValTy} {m : Memory}
    (h : ReturnCode Γ ret sc e n is v n')
    (hm : Matches args s n sc env) (heval : e.eval W Γ.find? env s.memory = some (y, t, m))
    (hcoerce : coerce? W m y t ret = some z) (hcontent : content? m z ret = some c) :
    ∃ s' w, s.Goes W args is n s' ∧ s'.operand args v = some w ∧
    Delivers c m.heap w s'.memory.heap ret := by
  cases h with
  | @mk n₁ n₂ _ is js ks t w _ ts us he hc hr =>
    obtain ⟨s₁, g₁, rfl, rfl, v₁, c₁⟩ := he.runs hm heval
    obtain ⟨s₂, g₂, m₂, v₂⟩ := hc.computes v₁ hcoerce
    have g := g₁.trans g₂ he.le
    have hm₂ := hm.keep g.keeps (he.le.trans hc.le)
    have c₂ := c₁.keep g₂.keeps hc.le
    have hfree := goes_free (W := W) (hm₂.holdCells (Lower.sparedBy sc e)) n
    cases hr with
    | plain p =>
      cases hcontent
      refine ⟨s₂, z, ?_, v₂.value, rfl, by rw [m₂]⟩
      simpa using (g.trans (goes_settle c₂ n) le_rfl).trans hfree le_rfl
    | call p _ _ _ hcall =>
      obtain ⟨r, hr, hts⟩ := he.eq_cons_of_isCall hcall (by rw [hc.eq_of_pointer])
      rw [hc.eq_of_pointer] at hr
      have hcells := hts ▸ c₂
      obtain ⟨⟨a, ha⟩, hrest⟩ := List.forall_mem_cons.1 hcells
      refine ⟨s₂, z, ?_, v₂.value, ?_⟩
      · simpa using (g.trans (goes_settle hrest n) le_rfl).trans hfree le_rfl
      · rw [← m₂]
        exact delivers_cell v₂ (hr ▸ ha) (m₂ ▸ hcontent)
    | spared p _ _ _ hcall hs =>
      obtain ⟨⟨i, x⟩, hs⟩ := Option.isSome_iff_exists.1 hs
      obtain ⟨pos, l, rfl, hl, hheap⟩ := sparedBy_eq_some hs
      obtain ⟨a, -, hstorage, hcell⟩ := hm₂.lookup hl
      obtain ⟨k, rfl⟩ := hcell hheap
      rw [hc.eq_of_pointer] at he
      refine ⟨s₂, z, ?_, v₂.value, ?_⟩
      · simpa using (g.trans (goes_settle c₂ n) le_rfl).trans hfree le_rfl
      · rw [← m₂]
        have hv := he.storage_eq hl
        exact delivers_cell v₂ (hv ▸ hstorage) (m₂ ▸ hcontent)
    | copy p _ _ _ hcall hs =>
      obtain ⟨s₃, g₃, hresult, m₃⟩ := goes_copy (W := W) v₂ (m₂ ▸ hcontent)
      have g' := g.trans g₃ (he.le.trans hc.le)
      have hfree₃ :=
        goes_free (W := W) ((hm₂.keep g₃.keeps le_rfl).holdCells (Lower.sparedBy sc e)) n
      refine ⟨s₃, _, ?_, hresult, ?_⟩
      · simpa using (g'.trans (goes_settle (c₂.keep g₃.keeps le_rfl) n) le_rfl).trans hfree₃ le_rfl
      · rw [m₃, m₂]
        exact ⟨List.prefix_append _ _, _, rfl, by simp [Memory.pushCell]⟩

/-- Code does what a statement that ended in some way did: it returns the same, or gets past its end
with registers below `n` untouched. -/
def Func.Realizes (F : Func) (W : World) (args : List Datum) (ret : Ty) (s : Machine) (n : Nat)
    (k : List Instr) (sc : Scopes Value) (n' : Nat) (r : Option (List Instr)) : Flow → Prop
  | .returned v m => ∃ w m', F.Ends W args s k w m' ∧ Delivers v m.heap w m'.heap ret
  | .next env m => ∃ s' k', r = some k' ∧ F.Reaches W args s k s' k' ∧ s'.memory = m ∧
      (∀ r : Reg, r.index < n → s'.regs r = s.regs r) ∧ Matches args s' n' sc env

namespace Func.Realizes

variable {ret : Ty} {r : Option (List Instr)} {flow : Flow}

theorem reach (h : F.Realizes W args ret s' n' k' sc n'' r flow)
    (hreach : F.Reaches W args s k s' k') (hkeeps : ∀ r : Reg, r.index < n → s'.regs r = s.regs r)
    (hn : n ≤ n') :
    F.Realizes W args ret s n k sc n'' r flow := by
  cases flow with
  | returned v m =>
    obtain ⟨w, m', hends, hdelivers⟩ := h
    exact ⟨w, m', hreach w m' hends, hdelivers⟩
  | next env m =>
    obtain ⟨s₁, k₁, hr, hrest, hm, hkeeps', hmatches⟩ := h
    refine ⟨s₁, k₁, hr, hreach.trans hrest, hm, fun r hlt => ?_, hmatches⟩
    exact (hkeeps' r (hlt.trans_le hn)).trans (hkeeps r hlt)

/-- The end of an arm goes on with the block behind. -/
theorem join {l : String} {B : BasicBlock} (h : F.Realizes W args ret s n k sc n' r flow)
    (hr : JoinsAt l r) (hB : F.block? l = some B) (hn : n' ≤ n'') :
    F.Realizes W args ret s n k sc n'' (some B.code) flow := by
  cases flow with
  | returned v m => exact h
  | next env m =>
    obtain ⟨s₁, k₁, hk, hrest, hm, hkeeps, hmatches⟩ := h
    obtain ⟨k₂, rfl⟩ := hr k₁ hk
    exact ⟨s₁, B.code, rfl, hrest.trans (.branch hB), hm, hkeeps, hmatches.keep (fun _ _ => rfl) hn⟩

end Func.Realizes

section

variable {ret : Ty} {rounds : Nat}

/-- The rounds of a loop, each from the block of its condition. -/
theorem iterate_realizes {c : Expr} {v : Value} {lc lb la : String} {Bc Bb Ba : BasicBlock}
    {rb : Option (List Instr)} {body : Memory → Option Flow} (ht : TestCode Γ sc c n is v n')
    (hBc : F.block? lc = some Bc) (hBb : F.block? lb = some Bb) (hBa : F.block? la = some Ba)
    (hcode : Bc.code = is ++ .condBranch v lb la :: k) (hj : JoinsAt lc rb) (hle : n' ≤ n'')
    (hbody : ∀ {s : Machine} {flow}, Matches args s n' sc env → body s.memory = some flow →
      F.Realizes W args ret s n' Bb.code sc n'' rb flow) :
    ∀ N, ∀ {s : Machine} {flow}, Matches args s n sc env →
      iterate (c.test W Γ.find? env) body env N s.memory = some flow →
      F.Realizes W args ret s n Bc.code sc n'' (some Ba.code) flow := by
  intro N
  induction N with
  | zero =>
    intro s flow _ hiter
    simp [iterate] at hiter
  | succ N ih =>
    intro s flow hm hiter
    simp only [iterate, Option.bind_eq_bind, Option.bind_eq_some_iff, Prod.exists] at hiter
    obtain ⟨b, m, htest, hiter⟩ := hiter
    obtain ⟨s₁, hgoes, rfl, hb⟩ := ht.runs hm htest
    have hm₁ := hm.keep hgoes.keeps ht.le
    have htested : F.Reaches W args s Bc.code s₁ (.condBranch v lb la :: k) :=
      hcode ▸ .steps hgoes.steps
    cases b with
    | false =>
      rw [if_neg Bool.false_ne_true] at hiter
      cases hiter
      exact ⟨s₁, _, rfl, htested.trans (.condBranch hb hBa), rfl, hgoes.keeps,
        hm₁.keep (fun _ _ => rfl) hle⟩
    | true =>
      rw [if_pos rfl, Option.bind_eq_some_iff] at hiter
      obtain ⟨flow', hexec, hiter⟩ := hiter
      have hround := hbody hm₁ hexec
      have hreach := htested.trans (.condBranch hb hBb)
      cases flow' with
      | returned v m =>
        cases hiter
        exact hround.reach hreach hgoes.keeps ht.le
      | next env' m =>
        -- the next round starts with the registers that this one started with
        obtain ⟨s₂, _, hk, hrest, rfl, hkeeps, -⟩ := hround.join hj hBc le_rfl
        cases hk
        have hkeeps₂ : ∀ r : Reg, r.index < n → s₂.regs r = s.regs r := fun r hr =>
          (hkeeps r (hr.trans_le ht.le)).trans (hgoes.keeps r hr)
        exact (ih (hm.keep hkeeps₂ le_rfl) hiter).reach (hreach.trans hrest) hkeeps₂ le_rfl

mutual

theorem StmtCode.realizes : ∀ {sc st n k sc' n' r}, StmtCode Γ ret F sc st n k sc' n' r →
    ∀ {s : Machine} {env flow},
      Matches args s n sc env → st.exec W Γ.find? ret rounds env s.memory = some flow →
    F.Realizes W args ret s n k sc' n' r flow
  | _, _, _, _, _, _, _, .declaration pos hd, s, env, flow, hm, hexec => by
    cases hexec
    obtain ⟨s', hgoes, hmem, hmatches⟩ := hd.runs (W := W) hm
    exact ⟨s', _, rfl, .commented hgoes, hmem, hgoes.keeps, hmatches⟩
  | _, _, _, _, _, _, _, .assignment pos ha, s, env, flow, hm, hexec => by
    simp only [Stmt.exec, Option.bind_eq_bind, Option.bind_eq_some_iff, Prod.exists,
      Option.pure_def, Option.some.injEq] at hexec
    obtain ⟨ty, a, hl, y, t, m, heval, z, hcoerce, c, hcontent, m', hwrite, rfl⟩ := hexec
    obtain ⟨s', hgoes, hmem⟩ := ha.runs hm hl heval hcoerce hcontent hwrite
    exact ⟨s', _, rfl, .commented hgoes, hmem, hgoes.keeps, hm.keep hgoes.keeps ha.le⟩
  | _, _, _, _, _, _, _, .ret pos hr, s, env, flow, hm, hexec => by
    simp only [Stmt.exec, Option.bind_eq_bind, Option.bind_eq_some_iff, Prod.exists,
      Option.pure_def, Option.some.injEq] at hexec
    obtain ⟨y, t, m, heval, z, hcoerce, c, hcontent, rfl⟩ := hexec
    obtain ⟨s', w, hgoes, hw, hdelivers⟩ := hr.runs hm heval hcoerce hcontent
    exact ⟨w, s'.memory, Func.Reaches.commented hgoes _ _ (ends_ret hw), hdelivers⟩
  | _, _, _, _, _, _, _, .ifElse pos ht hBy hBn hBa hyes hjy hno hjn, s, env, flow, hm, hexec => by
    simp only [Stmt.exec, Option.bind_eq_bind, Option.bind_eq_some_iff, Prod.exists] at hexec
    obtain ⟨b, m, htest, hexec⟩ := hexec
    obtain ⟨s₁, hgoes, rfl, hb⟩ := ht.runs hm htest
    have hm₁ := hm.keep hgoes.keeps ht.le
    cases b with
    | true =>
      rw [if_pos rfl] at hexec
      refine ((hyes.realizes hm₁ hexec).join hjy hBa hno.le).reach ?_ hgoes.keeps ht.le
      exact (Func.Reaches.commented hgoes).trans (.condBranch hb hBy)
    | false =>
      rw [if_neg Bool.false_ne_true] at hexec
      refine ((hno.realizes (hm₁.keep (fun _ _ => rfl) hyes.le) hexec).join hjn hBa le_rfl).reach ?_
        hgoes.keeps (ht.le.trans hyes.le)
      exact (Func.Reaches.commented hgoes).trans (.condBranch hb hBn)
  | _, _, _, _, _, _, _, .loop pos hBc hBb hBa ht hcode hbody hj, s, env, flow, hm, hexec => by
    rw [Stmt.exec] at hexec
    have hround := iterate_realizes ht hBc hBb hBa hcode hj hbody.le
      (fun hm hexec => hbody.realizes hm hexec) rounds hm
      hexec
    exact hround.reach ((Func.Reaches.step rfl).trans (.branch hBc)) (fun _ _ => rfl) le_rfl
  | _, _, _, _, _, _, _, .block hb, s, env, flow, hm, hexec => by
    rw [Stmt.exec] at hexec
    exact hb.realizes hm hexec

theorem BlockCode.realizes : ∀ {sc b n k n' r}, BlockCode Γ ret F sc b n k n' r →
    ∀ {s : Machine} {env flow},
      Matches args s n sc env → b.exec W Γ.find? ret rounds env s.memory = some flow →
    F.Realizes W args ret s n k sc n' r flow
  | _, _, _, _, _, _, .closed pos hl, s, env, flow, hm, hexec => by
    simp only [Block.exec, Option.bind_eq_bind, Option.bind_eq_some_iff] at hexec
    obtain ⟨flow', hlist, hexec⟩ := hexec
    have hreal := hl.realizes hm.enter hlist
    cases flow' with
    | returned v m =>
      cases hexec
      exact hreal
    | next env' m =>
      obtain ⟨_, _, hk, -⟩ := hreal
      cases hk
  | _, _, _, _, _, _, .left pos hl, s, env, flow, hm, hexec => by
    simp only [Block.exec, Option.bind_eq_bind, Option.bind_eq_some_iff] at hexec
    obtain ⟨flow', hlist, hexec⟩ := hexec
    have hreal := hl.realizes hm.enter hlist
    cases flow' with
    | returned v m =>
      cases hexec
      exact hreal
    | next env' m =>
      cases hexec
      obtain ⟨s', _, hk, hreach, hmem, hkeeps, hmatches⟩ := hreal
      cases hk
      have hleave : s'.Goes W args _ 0 s' := goes_leave hmatches.holdFrame 0
      exact ⟨s', _, rfl, hreach.trans (.steps hleave.steps), hmem, hkeeps, hm.keep hkeeps hl.le⟩

theorem ListCode.realizes : ∀ {sc ss n k sc' n' r}, ListCode Γ ret F sc ss n k sc' n' r →
    ∀ {s : Machine} {env flow}, Matches args s n sc env →
    Stmt.execList W Γ.find? ret rounds ss env s.memory = some flow →
    F.Realizes W args ret s n k sc' n' r flow
  | _, _, _, _, _, _, _, .nil .., s, env, flow, hm, hexec => by
    cases hexec
    exact ⟨s, _, rfl, fun _ _ he => he, rfl, fun _ _ => rfl, hm⟩
  | _, _, _, _, _, _, _, .cons hstmt hlist, s, env, flow, hm, hexec => by
    simp only [Stmt.execList, Option.bind_eq_bind, Option.bind_eq_some_iff] at hexec
    obtain ⟨flow', hfirst, hexec⟩ := hexec
    have hreal := hstmt.realizes hm hfirst
    cases flow' with
    | returned v m =>
      cases hexec
      exact hreal
    | next env' m =>
      obtain ⟨s', _, hk, hreach, rfl, hkeeps, hmatches⟩ := hreal
      cases hk
      exact (hlist.realizes hmatches hexec).reach hreach hkeeps hstmt.le
  | _, _, _, _, _, _, _, .closed _ hstmt, s, env, flow, hm, hexec => by
    simp only [Stmt.execList, Option.bind_eq_bind, Option.bind_eq_some_iff] at hexec
    obtain ⟨flow', hfirst, hexec⟩ := hexec
    have hreal := hstmt.realizes hm hfirst
    cases flow' with
    | returned v m =>
      cases hexec
      exact hreal
    | next env' m =>
      obtain ⟨_, _, hk, -⟩ := hreal
      cases hk

end

end

/-- Plain arguments are moved to slots. -/
theorem Matches.bindPlain {f : Frame Value} {i : Nat} {x : Datum}
    (h : Matches args s n (f :: sc) env) (name : String) (p : Prim)
    (hi : s.operand args (paramValue i) = some x) :
    ∃ s', s.Goes W args [.stackAlloc ⟨n⟩ p name, .store (paramValue i) (.reg ⟨n⟩)] n s' ∧
      s'.memory = (s.memory.pushSlot x).2 ∧
      Matches args s' (n + 1) (((name, ⟨.reg ⟨n⟩, .plain p, false⟩) :: f) :: sc)
        ((name, .plain p, (s.memory.pushSlot x).1) :: env) := by
  obtain ⟨⟨a, m⟩, hpush⟩ : ∃ slot, slot = s.memory.pushSlot (W.fresh s.memory p) := ⟨_, rfl⟩
  have hwrite := Memory.write?_pushSlot s.memory (W.fresh s.memory p) x
  have hsame : (s.memory.pushSlot x).1 = (s.memory.pushSlot (W.fresh s.memory p)).1 := rfl
  rw [← hpush] at hwrite hsame
  have halloc : s.Goes W args [.stackAlloc ⟨n⟩ p name] n ({ s with memory := m }.set ⟨n⟩ a) :=
    .define (by simp [Machine.step?, ← hpush])
  have hslot := Machine.Holds.defined args { s with memory := m } n a
  have hx : ({ s with memory := m }.set ⟨n⟩ a).operand args (paramValue i) = some x := hi
  have hstore : ({ s with memory := m }.set ⟨n⟩ a).Goes W args [.store (paramValue i) (.reg ⟨n⟩)] n
      { regs := ({ s with memory := m }.set ⟨n⟩ a).regs, memory := (s.memory.pushSlot x).2 } :=
    .single n (by simp [Machine.step?, hx, hwrite])
  refine ⟨_, halloc.trans hstore le_rfl, rfl, .cons ⟨rfl, rfl, ?_, by simp⟩ ?_⟩
  · rw [hsame]
    exact hslot.keep fun _ _ => rfl
  · exact h.keep (halloc.trans hstore le_rfl).keeps (Nat.le_succ n)

theorem operand_paramValue {i : Nat} {x : Datum} {xs : List Datum} (hi : i < Recorder.paramLimit)
    (hargs : args.drop i = x :: xs) : s.operand args (paramValue i) = some x := by
  have hget : args[i]? = some x := by simpa using congrArg List.head? hargs
  simpa [paramValue, Machine.operand, Nat.mod_eq_of_lt hi] using hget

theorem ParamsCode.runs {i : Nat} {ps : List Param} {env' : Env} {m : Memory}
    (h : ParamsCode i sc ps n is sc' n')
    (hm : Matches args s n sc env) (hlimit : i + ps.length ≤ Recorder.paramLimit)
    (hbind : Env.bind? ps (args.drop i) env s.memory = some (env', m)) :
    ∃ s', s.Goes W args is n s' ∧ s'.memory = m ∧ Matches args s' n' sc' env' := by
  induction h generalizing s env with
  | nil =>
    cases hargs : args.drop _ with
    | nil =>
      rw [hargs] at hbind
      cases hbind
      exact ⟨s, .nil s _, rfl, hm⟩
    | cons =>
      rw [hargs] at hbind
      cases hbind
  | @plain frame sc sc' pos i n n' x p ps is _ _ ih =>
    cases hargs : args.drop i with
    | nil =>
      rw [hargs] at hbind
      cases hbind
    | cons y ys =>
      rw [List.length_cons] at hlimit
      obtain ⟨s₁, hgoes, hmem, hm₁⟩ :=
        hm.bindPlain (W := W) x p (operand_paramValue (by omega) hargs)
      have htail : args.drop (i + 1) = ys := by simpa using congrArg List.tail hargs
      rw [hargs] at hbind
      obtain ⟨s₂, hrest, hend⟩ := ih hm₁ (by omega) (by rw [htail, hmem]; exact hbind)
      exact ⟨s₂, hgoes.trans hrest (Nat.le_succ n), hend⟩
  | @pointer frame sc sc' pos i n n' x p ps is _ _ ih =>
    cases hargs : args.drop i with
    | nil =>
      rw [hargs] at hbind
      cases hbind
    | cons y ys =>
      rw [List.length_cons] at hlimit
      have hy : s.operand args (paramValue i) = some y := operand_paramValue (by omega) hargs
      have hm₁ : Matches args s n (((x, ⟨paramValue i, .pointer p, false⟩) :: frame) :: sc)
          ((x, .pointer p, y) :: env) :=
        .cons ⟨rfl, rfl, ⟨by simp [paramValue], hy⟩, by simp⟩ hm
      have htail : args.drop (i + 1) = ys := by simpa using congrArg List.tail hargs
      rw [hargs] at hbind
      exact ih hm₁ (by omega) (by rw [htail]; exact hbind)

/-- The code of a definition gives what the definition gives. -/
theorem DefinitionCode.runs {d : Definition} {rounds : Nat} {heap heap' : List Datum} {v : Datum}
    (h : DefinitionCode Γ F d n is) (hlimit : d.prototype.params.length ≤ Recorder.paramLimit)
    (hrun : d.run W Γ.find? rounds args heap = some (v, heap')) :
    ∃ w m, F.Ends W args ⟨fun _ => none, ⟨[], heap⟩⟩ is w m ∧
    Delivers v heap' w m.heap d.prototype.ret := by
  simp only [Definition.run, Option.bind_eq_bind, Option.bind_eq_some_iff, Prod.exists] at hrun
  obtain ⟨env, m, hbind, flow, hexec, hrun⟩ := hrun
  cases h with
  | mk hparams hlist hfall =>
    have hstart : Matches args ⟨fun _ => none, ⟨[], heap⟩⟩ n [[]] [] := .nil
    obtain ⟨s₁, hgoes, rfl, hm₁⟩ :=
      hparams.runs (W := W) hstart (by simpa using hlimit) (by simpa using hbind)
    have hreal := hlist.realizes hm₁ hexec
    cases flow with
    | returned v m =>
      cases hrun
      obtain ⟨w, m', hends, hdelivers⟩ := hreal
      exact ⟨w, m', Func.Reaches.commented hgoes w m' hends, hdelivers⟩
    | next env' m =>
      obtain ⟨s₂, k, hk, hrest, rfl, -, hm₂⟩ := hreal
      obtain ⟨k', rfl⟩ := hfall k hk
      have hfree : s₂.Goes W args _ 0 s₂ := goes_free hm₂.holdFrame 0
      have hend := hrest.trans (.steps hfree.steps)
      cases hret : d.prototype.ret with
      | pointer p =>
        rw [hret] at hrun
        cases hrun
      | plain p =>
        rw [hret] at hrun hend
        cases hrun
        have hzero : s₂.operand args p.zeroValue = some p.zeroDatum := by cases p <;> rfl
        exact ⟨_, _, Func.Reaches.commented hgoes _ _ (hend _ _ (ends_ret hzero)), rfl, rfl⟩

/-- How many blocks the target has under a name. -/
def Recorder.blockCount (r : Recorder) (name : String) : Nat :=
  ((r.named? name).map fun F => F.blocks.length).getD 0

theorem Definition.Begun.blockCount {d : Definition} {s : Lowering Recorder} {S : Site} {F : Func}
    (h : d.Begun s S F) :
    s.target.blockCount d.prototype.name = F.blocks.length := by
  have hF := h.func
  rcases h.place with ⟨hfind, htarget⟩ | ⟨hfind, hid, htarget⟩
  · rw [htarget] at hF
    simp [Recorder.blockCount, Recorder.named?, hfind, hF]
  · rw [htarget, hid] at hF
    simp only [Recorder.function?, Recorder.declare, List.getElem?_concat_length, Option.join_some,
      Option.some.injEq] at hF
    simp [Recorder.blockCount, Recorder.named?, hfind, ← hF]

/-- A run of a lowered definition by its code, from the block that its lowering began with. -/
theorem Definition.runs_of_lower {d : Definition} {s s' : Lowering Recorder} {f : FunctionId}
    (h : d.lower s = .ok f s') (hlimit : d.prototype.params.length ≤ Recorder.paramLimit)
    {rounds : Nat} {heap heap' : List Datum} {v : Datum}
    (hrun : d.run W s'.signatures.find? rounds args heap = some (v, heap')) :
    ∃ F fuel w heap'', s'.target.function? f = some F ∧
      F.run W (s.target.blockCount d.prototype.name) fuel args heap = some (w, heap'') ∧
      Delivers v heap' w heap'' d.prototype.ret := by
  obtain ⟨S, F, B, hbegun, hbody, rfl, rfl⟩ := d.begun_of_lower h
  obtain ⟨B', hstate, hlowered⟩ := Definition.lowerBody_code hbegun.func hbegun.scopes
    hbegun.temporaries hbegun.ret hbody
  cases Site.state_injective hstate
  obtain ⟨w, m, ⟨fuel, hexec⟩, hdelivers⟩ :=
    (hlowered.code B.func (.refl _)).runs hlimit hrun
  refine ⟨B.func, fuel, w, m.heap, S.function?_recorder B, ?_, hdelivers⟩
  rw [hbegun.blockCount, Func.run, hexec]
  rfl

/-- Blocks that come behind those of a function are not reached from them, where all branches of
these lead to one another. -/
theorem Func.exec_append {F F₀ : Func} {more : List BasicBlock}
    (hblocks : F.blocks = F₀.blocks ++ more)
    (htargets : ∀ i ∈ F₀.code, ∀ l ∈ i.targets, ∃ b, F₀.block? l = some b) (fuel : Nat)
    (s : Machine) {is : List Instr} (his : is ⊆ F₀.code) :
    F.exec W args fuel s is = F₀.exec W args fuel s is := by
  have hjump : ∀ i ∈ F₀.code, ∀ l ∈ i.targets,
      ∃ b, F.block? l = some b ∧ F₀.block? l = some b ∧ b.code ⊆ F₀.code := by
    intro i hi l hl
    obtain ⟨b, hb⟩ := htargets i hi l hl
    refine ⟨b, ?_, hb, fun j hj => List.mem_flatMap.2 ⟨b, List.mem_of_find?_eq_some hb, hj⟩⟩
    rw [block?, hblocks, List.find?_append, show F₀.blocks.find? _ = some b from hb]
    rfl
  induction fuel generalizing s is with
  | zero => rfl
  | succ fuel ih =>
    cases is with
    | nil => rfl
    | cons i is =>
      obtain ⟨hi, his⟩ := List.cons_subset.1 his
      have hnext : ∀ s', F.exec W args fuel s' is = F₀.exec W args fuel s' is := fun s' => ih s' his
      cases i with
      | ret | unreachable => rfl
      | branch target =>
        obtain ⟨b, hb, hb₀, hcode⟩ := hjump _ hi target List.mem_cons_self
        simp only [exec, hb, hb₀]
        exact ih s hcode
      | condBranch cond yes no =>
        have hside : ∀ b : Bool, ∃ B, F.block? (if b then yes else no) = some B ∧
            F₀.block? (if b then yes else no) = some B ∧ B.code ⊆ F₀.code := by
          intro b
          refine hjump _ hi _ ?_
          cases b <;> simp [Instr.targets]
        simp only [exec]
        split
        · next b _ =>
          obtain ⟨B, hB, hB₀, hcode⟩ := hside b
          rw [hB, hB₀]
          exact ih s hcode
        · rfl
      | _ => simp only [exec, hnext]

/-- The code of a definition is run from the first block on if the function had no blocks before,
and then gives what the definition gives. If it had a body, the code comes behind that, and a run
from the first block on is one of the earlier body. The target numbers parameters by words: with
more parameters than words two of them would share a number. -/
theorem lowering_preserves_meaning {d : Definition} {s s' : Lowering Recorder} {f : FunctionId}
    (h : d.lower s = .ok f s') (hlimit : d.prototype.params.length ≤ Recorder.paramLimit)
    (W : World) (args heap : List Datum) :
    ∃ F, s'.target.function? f = some F ∧
      (s.target.blockCount d.prototype.name = 0 → ∀ rounds v heap',
        d.run W s'.signatures.find? rounds args heap = some (v, heap') →
          ∃ fuel w heap'', F.run W 0 fuel args heap = some (w, heap'') ∧
            Delivers v heap' w heap'' d.prototype.ret) ∧
      ∀ F₀, s.target.named? d.prototype.name = some F₀ → F₀.WellFormed →
        ∀ fuel, F.run W 0 fuel args heap = F₀.run W 0 fuel args heap := by
  obtain ⟨S, F, B, hbegun, hbody, rfl, rfl⟩ := d.begun_of_lower h
  have hfunction := S.function?_recorder B
  refine ⟨B.func, hfunction, fun hnone rounds v heap' hrun => ?_, fun F₀ hF₀ hformed fuel => ?_⟩
  · obtain ⟨F', fuel, w, heap'', hF', hw, hdelivers⟩ := Definition.runs_of_lower h hlimit hrun
    obtain rfl : B.func = F' := Option.some.inj (hfunction.symm.trans hF')
    rw [hnone] at hw
    exact ⟨fuel, w, heap'', hw, hdelivers⟩
  · obtain ⟨id, hfind, hid⟩ := Option.bind_eq_some_iff.1 hF₀
    obtain rfl : F = F₀ := Option.some.inj ((hbegun.of_find? hfind).2.symm.trans hid)
    obtain ⟨more, -, hblocks⟩ := hbegun.blocks hbody
    have hfirst : B.func.codeAt 0 = F.codeAt 0 := by
      cases hb : F.blocks with
      | nil => simpa [hb] using hformed.first
      | cons b bs => rw [Func.codeAt, Func.codeAt, hblocks, hb]; rfl
    have hcode : F.codeAt 0 ⊆ F.code := by
      intro i hi
      cases hb : F.blocks with
      | nil => simp [Func.codeAt, hb] at hi
      | cons b bs =>
        rw [Func.codeAt, hb] at hi
        exact List.mem_flatMap.2 ⟨b, by rw [hb]; exact List.mem_cons_self, hi⟩
    have htargets : ∀ i ∈ F.code, ∀ l ∈ i.targets, ∃ b, F.block? l = some b := by
      intro i hi l hl
      obtain ⟨b, -, -, hb⟩ := hformed.targets i hi l hl
      exact ⟨b, hb⟩
    rw [Func.run, Func.run, hfirst, Func.exec_append hblocks htargets fuel _ hcode]

/-- `Int max(Int a, Int b)`, which returns a copy of what the larger argument holds. -/
def Definition.max : Definition where
  pos := 0
  prototype := ⟨0, "max", [⟨0, "a", .pointer .int⟩, ⟨0, "b", .pointer .int⟩], .pointer .int⟩
  body := .mk 0
    [.declaration 0 (.pointer .int) ["p"],
    .assignment 0 "p" (.var 0 "a"),
    .loop 0 (.binary 0 .less (.var 0 "p") (.var 0 "b")) (.mk 0 [.assignment 0 "p" (.var 0 "b")]),
    .ret 0 (.var 0 "p")]

/-- A world that knows no functions and no doubles, where new storage is zero. -/
def World.bare : World where
  call _ _ heap := (.int 0, heap)
  add x _ := x
  sub x _ := x
  mul x _ := x
  less _ _ := false
  differ _ _ := false
  ofNat _ := .zero
  toNat _ := 0
  newInt _ := 0
  newDouble _ := .zero

theorem lowering_preserves_meaning_max :
    ∃ f s' F fuel w heap, Definition.max.lower (.ofTarget Recorder.empty) = .ok f s' ∧
      s'.target.function? f = some F ∧
      F.run .bare 0 fuel [.cell 0, .cell 1] [.int 3, .int 5] = some (w, heap) ∧
      Delivers (.int 5) [.int 3, .int 5, .int 5] w heap (.pointer .int) := by
  have hcheck : (match Definition.max.lower (.ofTarget Recorder.empty) with
      | .ok _ s' => decide (Definition.max.run .bare s'.signatures.find? 2 [.cell 0, .cell 1]
          [.int 3, .int 5] = some (.int 5, [.int 3, .int 5, .int 5]))
      | .error _ _ => false) = true := by
    decide +kernel
  cases hlower : Definition.max.lower (.ofTarget Recorder.empty) with
  | ok f s' =>
    rw [hlower] at hcheck
    obtain ⟨F, hF, hmeaning, -⟩ := lowering_preserves_meaning hlower (by decide +kernel) .bare
      [.cell 0, .cell 1] [.int 3, .int 5]
    obtain ⟨fuel, w, heap, hrun, hdelivers⟩ := hmeaning rfl 2 _ _ (of_decide_eq_true hcheck)
    exact ⟨f, s', F, fuel, w, heap, rfl, hF, hrun, hdelivers⟩
  | error e s' =>
    rw [hlower] at hcheck
    cases hcheck

/-- A definition that is lowered under a name which has a body in the target does not mean what a
run of the function gives: it returns 2, and the function still returns 1. -/
theorem second_definition_runs_first_body :
    let r := (compile "int f() \x7b return 1; \x7d" Recorder.empty).2
    let d : Definition := ⟨0, ⟨0, "f", [], .plain .int⟩, .mk 8 [.ret 10 (.int 17 2)]⟩
    ∃ s' F, d.lower (.ofTarget r) = .ok ⟨0⟩ s' ∧ s'.target.function? ⟨0⟩ = some F ∧
      s'.target = (compile "int f() \x7b return 2; \x7d" r).2 ∧
      d.run .bare s'.signatures.find? 1 [] [] = some (.int 2, []) ∧
      F.run .bare 0 4 [] [] = some (.int 1, []) ∧
      ∀ fuel, F.run .bare 0 fuel [] [] ≠ some (.int 2, []) := by
  intro r d
  obtain ⟨F, hF⟩ : ∃ F : Func, F = ⟨"f", ⟨[], .plain .int⟩,
      [⟨"entry", [.comment "function int f()", .comment "return 1;", .ret (.int 1)]⟩,
        ⟨"entry1", [.comment "function int f()", .comment "return 2;", .ret (.int 2)]⟩], 0⟩ :=
    ⟨_, rfl⟩
  have hcheck : (match d.lower (.ofTarget r) with
      | .ok f s' => decide (f = ⟨0⟩ ∧ s'.target.function? ⟨0⟩ = some F ∧
          s'.target = (compile "int f() \x7b return 2; \x7d" r).2 ∧
          d.run .bare s'.signatures.find? 1 [] [] = some (.int 2, []))
      | .error _ _ => false) = true := by
    rw [hF]
    decide +kernel
  cases hlower : d.lower (.ofTarget r) with
  | ok f s' =>
    rw [hlower] at hcheck
    obtain ⟨rfl, hfunction, htarget, hrun⟩ := of_decide_eq_true hcheck
    refine ⟨s', F, rfl, hfunction, htarget, hrun, by rw [hF]; decide +kernel, fun fuel => ?_⟩
    rw [hF]
    rcases fuel with _ | _ | _ | _ | fuel <;>
      simp [Func.run, Func.exec, Func.codeAt, Machine.step?, Machine.operand]
  | error e s' =>
    rw [hlower] at hcheck
    cases hcheck

end ImpFront
