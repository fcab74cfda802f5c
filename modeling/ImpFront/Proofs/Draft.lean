import Mathlib
import ImpFront.Proofs.Session

/-! A body as it is written, step by step. A draft is an unfinished body together with a plan: the
blocks that still wait for code, and the scopes in which control enters each block. Six kinds of
steps write every body, so that an invariant of finished functions needs one case for each kind and
no induction over trees. -/

namespace ImpFront

open Lower

/-- Code that control runs through, and what it makes of the scopes. -/
inductive StraightCode (Γ : Signatures) (sig : Signature) :
    Scopes Value → Nat → List Instr → Scopes Value → Nat → Prop
  | comment (sc : Scopes Value) (n : Nat) (text : String) :
      StraightCode Γ sig sc n [.comment text] sc n
  | params {ps : List Param} {sc : Scopes Value} {n n' : Nat} {is : List Instr} :
      ps.map Param.ty = sig.params → ParamsCode 0 [[]] ps n is sc n' →
        StraightCode Γ sig [[]] n is sc n'
  | declare {ty : Ty} {xs : List String} {sc sc' : Scopes Value} {n n' : Nat} {is : List Instr} :
      DeclareCode ty sc xs n is sc' n' → StraightCode Γ sig sc n is sc' n'
  | assign {x : String} {e : Expr} {sc : Scopes Value} {n n' : Nat} {is : List Instr} :
      AssignCode Γ sc x e n is n' → StraightCode Γ sig sc n is sc n'
  | enter (sc : Scopes Value) (n : Nat) : StraightCode Γ sig sc n [] ([] :: sc) n
  | leave (frame : Frame Value) (sc : Scopes Value) (n : Nat) :
      StraightCode Γ sig (frame :: sc) n (leaveCode frame.handles) sc n

/-- Code that closes a block, and the terminator behind it. A branch leads to blocks that are
entered in the scopes it leaves; `entries` holds those of all blocks of `F`. -/
inductive EndCode (Γ : Signatures) (sig : Signature) (F : Func) (entries : List (Scopes Value)) :
    Scopes Value → Nat → List Instr → Instr → Nat → Prop
  | ret {e : Expr} {sc : Scopes Value} {n n' : Nat} {is : List Instr} {v : Value} :
      ReturnCode Γ sig.ret sc e n is v n' → EndCode Γ sig F entries sc n is (.ret v) n'
  | fall (frame : Frame Value) (sc : Scopes Value) (n : Nat) :
      EndCode Γ sig F entries (frame :: sc) n (freeCode frame.handles) sig.ret.fallInstr n
  | branch {sc : Scopes Value} {i : Nat} (n : Nat) :
      entries[i]? = some sc → EndCode Γ sig F entries sc n [] (.branch (F.labelAt i)) n
  | test {c : Expr} {sc : Scopes Value} {n n' : Nat} {is : List Instr} {v : Value} {i j : Nat} :
      TestCode Γ sc c n is v n' → entries[i]? = some sc → entries[j]? = some sc →
      EndCode Γ sig F entries sc n is (.condBranch v (F.labelAt i) (F.labelAt j)) n'

structure Draft where
  body : Body
  /-- The blocks that wait for code, the next one first. -/
  pending : List Nat
  /-- The scopes in which control enters each block. -/
  entries : List (Scopes Value)

namespace Draft

/-- The ways in which a draft goes on. A block is written until a terminator closes it; only then
comes the next. -/
inductive Step (Γ : Signatures) (sig : Signature) : Draft → Draft → Prop
  | write {B : Body} {P : List Nat} {E : List (Scopes Value)} {is : List Instr} {sc : Scopes Value}
      {n : Nat}
      (ds : List (String × Signature)) :
      B.closed = false → StraightCode Γ sig B.scopes B.func.registers is sc n →
      Step Γ sig ⟨B, P, E⟩ ⟨(B.write is n [] ds).rescope sc, P, E⟩
  | close {B : Body} {P : List Nat} {E : List (Scopes Value)} {is : List Instr} {t : Instr}
      {n : Nat}
      (ds : List (String × Signature)) :
      B.closed = false → EndCode Γ sig B.func E B.scopes B.func.registers is t n →
      Step Γ sig ⟨B, P, E⟩ ⟨B.write (is ++ [t]) n [] ds, P, E⟩
  | note {B : Body} {P : List Nat} {E : List (Scopes Value)} (text : String) :
      B.closed = true → Step Γ sig ⟨B, P, E⟩ ⟨B.write [.comment text] B.func.registers [] [], P, E⟩
  | leave {B : Body} {P : List Nat} {E : List (Scopes Value)} (sc : Scopes Value) :
      B.closed = true → Step Γ sig ⟨B, P, E⟩ ⟨B.rescope sc, P, E⟩
  | fork {B : Body} {P : List Nat} {E : List (Scopes Value)} (first second third : String) :
      B.closed = false →
      Step Γ sig ⟨B, P, E⟩ ⟨B.fork first second third,
        B.func.blocks.length :: (B.func.blocks.length + 1) :: (B.func.blocks.length + 2) :: P,
        E ++ [B.scopes, B.scopes, B.scopes]⟩
  | move {B : Body} {i : Nat} {P : List Nat} {E : List (Scopes Value)} :
      B.closed = true → E[i]? = some B.scopes → Step Γ sig ⟨B, i :: P, E⟩ ⟨B.moveTo i, P, E⟩

/-- A run of steps. -/
abbrev Path (Γ : Signatures) (sig : Signature) : Draft → Draft → Prop :=
  Relation.ReflTransGen (Step Γ sig)

variable {Γ : Signatures} {sig : Signature} {D D' : Draft}

/-- Each block has its entry. -/
def Planned (D : Draft) : Prop := D.entries.length = D.body.func.blocks.length

theorem Step.planned (h : Step Γ sig D D') (hD : D.Planned) : D'.Planned := by
  unfold Planned at *
  cases h with
  | write | close | note => simpa [Body.write, Func.write] using hD
  | leave | move => exact hD
  | fork => simpa [Body.fork_length] using hD

theorem Path.planned (h : Path Γ sig D D') (hD : D.Planned) : D'.Planned := by
  induction h with
  | refl => exact hD
  | tail _ hstep ih => exact hstep.planned ih

end Draft

theorem Func.labels_write (F : Func) (b n : Nat) (is : List Instr) :
    (F.write b is n).blocks.map BasicBlock.label = F.blocks.map BasicBlock.label := by
  apply List.ext_getElem?
  intro i
  simp only [write, List.getElem?_map, List.getElem?_modify]
  cases F.blocks[i]? with
  | none => rfl
  | some C => by_cases h : b = i <;> simp [h]

namespace Body

variable {B B' : Body}

/-- One body is written from another, whatever waits and however blocks are entered. -/
def Leads (Γ : Signatures) (sig : Signature) (B B' : Body) : Prop :=
  ∀ P E, E.length = B.func.blocks.length → ∃ E', Draft.Path Γ sig ⟨B, P, E⟩ ⟨B', P, E ++ E'⟩

variable {Γ : Signatures} {sig : Signature}

theorem Leads.refl (B : Body) : Leads Γ sig B B := fun _ E _ => ⟨[], by rw [List.append_nil]⟩

theorem Leads.trans {B'' : Body} (h : Leads Γ sig B B') (h' : Leads Γ sig B' B'') :
    Leads Γ sig B B'' := by
  intro P E hE
  obtain ⟨E₁, h₁⟩ := h P E hE
  obtain ⟨E₂, h₂⟩ := h' P (E ++ E₁) (h₁.planned hE)
  exact ⟨E₁ ++ E₂, List.append_assoc E E₁ E₂ ▸ h₁.trans h₂⟩

theorem Leads.of_step (h : ∀ P E, Draft.Step Γ sig ⟨B, P, E⟩ ⟨B', P, E⟩) : Leads Γ sig B B' :=
  fun P E _ => ⟨[], by rw [List.append_nil]; exact .single (h P E)⟩

theorem leads_enter (hB : B.closed = false) : Leads Γ sig B (B.rescope ([] :: B.scopes)) :=
  .of_step fun _ _ => by simpa using Draft.Step.write [] hB (.enter B.scopes B.func.registers)

theorem leads_write {is : List Instr} {sc : Scopes Value} {n : Nat} (hB : B.closed = false)
    (h : StraightCode Γ sig B.scopes B.func.registers is sc n) (ds : List (String × Signature)) :
    Leads Γ sig B ((B.write is n [] ds).rescope sc) :=
  .of_step fun _ _ => .write ds hB h

theorem closed_join (hb : B.block < B.func.blocks.length) (i : Nat) : (B.join i).closed = true := by
  unfold join
  split
  · assumption
  · exact closed_write_terminator hb [] _ [] [] rfl

theorem path_join {P : List Nat} {E : List (Scopes Value)} {i : Nat} (h : E[i]? = some B.scopes) :
    Draft.Path Γ sig ⟨B, P, E⟩ ⟨B.join i, P, E⟩ := by
  unfold join
  split
  · exact .refl
  · rename_i hopen
    exact .single (.close [] (by simpa using hopen) (.branch _ h))

/-- Code of a block does not depend on blocks that are added behind it. -/
theorem addBlock_write (hb : B.block < B.func.blocks.length) (is : List Instr) (n : Nat)
    (ts : List Value) (ds : List (String × Signature)) (hint : String) :
    (B.write is n ts ds).addBlock hint = (B.addBlock hint).write is n ts ds := by
  have hmodify : ∀ (l m : List BasicBlock) (b : Nat) (f : BasicBlock → BasicBlock), b < l.length →
      l.modify b f ++ m = (l ++ m).modify b f := by
    intro l m b f hb
    induction l generalizing b with
    | nil => simp at hb
    | cons a l ih =>
      cases b with
      | zero => simp
      | succ b => simpa using ih b (by simpa using hb)
  simp only [write, addBlock, Func.addBlock, Func.labels_write]
  simp only [Func.write, hmodify _ _ _ _ hb]

theorem fork_write (hb : B.block < B.func.blocks.length) (is : List Instr) (n : Nat)
    (ts : List Value) (ds : List (String × Signature)) (first second third : String) :
    (B.write is n ts ds).fork first second third =
      (B.fork first second third).write is n ts ds := by
  have hlt : ∀ C : Body, ∀ hint, C.block < C.func.blocks.length →
      (C.addBlock hint).block < (C.addBlock hint).func.blocks.length := fun C hint h => by
    simpa [addBlock, Func.addBlock] using Nat.lt_succ_of_lt h
  unfold fork
  rw [addBlock_write hb, addBlock_write (hlt _ _ hb), addBlock_write (hlt _ _ (hlt _ _ hb))]

end Body

variable {S : Site} {sig : Signature} {B B' : Body}

def Block.Drafts (S : Site) (sig : Signature) (b : Block) : Prop :=
  ∀ B B', B.Ready → b.lower (S.state B) = .ok () (S.state B') →
    Body.Leads S.start.signatures sig B B'

def Stmt.Drafts (S : Site) (sig : Signature) (s : Stmt) : Prop :=
  ∀ B B', B.Ready → s.lower (S.state B) = .ok () (S.state B') →
    Body.Leads S.start.signatures sig B B'

def Stmt.ListDrafts (S : Site) (sig : Signature) (ss : List Stmt) : Prop :=
  ∀ B B', B.Ready → Stmt.lowerList ss (S.state B) = .ok () (S.state B') →
    Body.Leads S.start.signatures sig B B'

theorem entry_append {E E' : List (Scopes Value)} {i : Nat} {sc : Scopes Value}
    (h : E[i]? = some sc) :
    (E ++ E')[i]? = some sc := by
  rw [List.getElem?_append_left (List.getElem?_eq_some_iff.1 h).1, h]

/-- An arm of a branch: its block is next, and it ends in a branch to a block that is entered in the
same scopes. -/
theorem Block.Drafts.arm {b : Block} {C : Body} {i j : Nat} {k : Unit → Lower Recorder Unit}
    {s' : Lowering Recorder} (hb : b.Drafts S sig)
    (hC : C.temporaries = []) (hclosed : C.closed = true) (hi : C.func.Awaits i)
    (h : (emit (.positionAtEnd ⟨S.id, ⟨i⟩⟩) >>= fun _ => b.lower >>= fun _ =>
      branchUnlessTerminated ⟨S.id, ⟨j⟩⟩ >>= k) (S.state C) = .ok () s') :
    ∃ D, k () (S.state D) = .ok () s' ∧ D.scopes = C.scopes ∧ (C.moveTo i).Becomes D ∧
    D.closed = true ∧
      ∀ P E, E.length = C.func.blocks.length → E[i]? = some C.scopes → E[j]? = some C.scopes →
        ∃ E', Draft.Path S.start.signatures sig ⟨C, i :: P, E⟩ ⟨D, P, E ++ E'⟩ := by
  rw [bind_of_ok (S.emit_positionAtEnd C i)] at h
  obtain ⟨_, s₁, hrun, h⟩ := bind_eq_ok.1 h
  have hready := Body.ready_moveTo hC hi
  obtain ⟨D, rfl, hsc, hlow⟩ := b.lower_code _ _ hready hrun
  rw [bind_of_ok (branchUnlessTerminated_state S D j)] at h
  refine ⟨D.join j, h, by simpa using hsc, hlow.becomes.join j,
    Body.closed_join hlow.becomes.block j, ?_⟩
  intro P E hE hEi hEj
  obtain ⟨E', hpath⟩ := hb _ _ hready hrun P E hE
  refine ⟨E', (Relation.ReflTransGen.head (.move hclosed hEi) hpath).trans (Body.path_join ?_)⟩
  rw [hsc]
  exact entry_append hEj

/-- A body is closed by code that branches over three new blocks: they wait in order, and each is
entered in the scopes of the branch. -/
structure Body.Forked (Γ : Signatures) (sig : Signature) (B C : Body) : Prop where
  settled : C.temporaries = []
  scopes : C.scopes = B.scopes
  closed : C.closed = true
  awaits : ∀ j, j < 3 → C.func.Awaits (B.func.blocks.length + j)
  path : ∀ P E, E.length = B.func.blocks.length →
    ∃ E', (∀ j, j < 3 → (E ++ E')[B.func.blocks.length + j]? = some B.scopes) ∧
      Draft.Path Γ sig ⟨B, P, E⟩
      ⟨C, B.func.blocks.length :: (B.func.blocks.length + 1) :: (B.func.blocks.length + 2) :: P,
        E ++ E'⟩

theorem Body.Ready.forked {Γ : Signatures} {is : List Instr} {t : Instr} {n : Nat}
    (ds : List (String × Signature))
    (first second third : String) (hB : B.Ready) (ht : t.isTerminator = true)
    (h : ∀ E : List (Scopes Value), (∀ j, j < 3 → E[B.func.blocks.length + j]? = some B.scopes) →
      EndCode Γ sig (B.fork first second third).func E B.scopes B.func.registers is t n) :
    B.Forked Γ sig ((B.fork first second third).write (is ++ [t]) n [] ds) := by
  have hfork := (Body.Becomes.refl hB.block hB.settled).fork first second third
  refine ⟨hB.settled, rfl, Body.closed_write_terminator hfork.block is n [] ds ht, fun j hj => ?_,
    fun P E hE => ?_⟩
  · have hne : B.func.blocks.length + j ≠ B.block := by have := hB.block; omega
    exact (Body.awaits_fork first second third hj).grows (Func.grows_write _ _ _ _) hne
  · have hentry : ∀ j, j < 3 →
        (E ++ [B.scopes, B.scopes, B.scopes])[B.func.blocks.length + j]? = some B.scopes := by
      intro j hj
      rw [List.getElem?_append_right (by omega), hE, Nat.add_sub_cancel_left]
      interval_cases j <;> rfl
    refine ⟨_, hentry,
      .head (.fork first second third hB.reached) (.single (.close ds ?_ (h _ hentry)))⟩
    rw [Body.closed_fork _ _ _ hB.block, hB.reached]

/-- Each statement begins with a comment of its own. -/
theorem Body.Ready.leads_after_comment {text : String} {k : Unit → Lower Recorder Unit}
    (hB : B.Ready) (h : (comment text >>= k) (S.state B) = .ok () (S.state B')) (hk : ∀ C,
      C.Ready → k () (S.state C) = .ok () (S.state B') → C.Leads S.start.signatures sig B') :
    B.Leads S.start.signatures sig B' := by
  rw [bind_of_ok (S.emit_comment B text)] at h
  refine Body.Leads.trans (Body.leads_write hB.reached (.comment _ _ text) []) (hk _ ?_ h)
  exact hB.write (by simp [Instr.isTerminator]) _ _

theorem Stmt.drafts_ifElse {pos : Nat} {c : Expr} {yes no : Block} (hyes : yes.Drafts S sig)
    (hno : no.Drafts S sig) :
    (Stmt.ifElse pos c yes no).Drafts S sig := by
  intro B₀ B' hB₀ h
  simp only [Stmt.lower] at h
  refine hB₀.leads_after_comment h fun B hB h => ?_
  rw [bind_of_ok (current_state S _)] at h
  obtain ⟨v, s₁, ht, h⟩ := bind_eq_ok.1 h
  obtain ⟨is, n, ds, htest, rfl, -⟩ := test_code hB.settled ht
  have hlen : (B.write is n [] ds).func.blocks.length = B.func.blocks.length := by
    simp [Body.write, Func.write]
  have hlabel : ∀ i, ((B.fork "then" "else" "ifcont").write is n [] ds).func.labelAt i =
    (B.fork "then" "else" "ifcont").func.labelAt i := fun i => Func.labelAt_write _ _ _ _ _
  rw [fork_state, bind_of_ok (S.emit_condBranch _ v _ _), Body.fork_write hB.block, hlen, hlabel,
    hlabel, Body.write_write, Body.write_registers, List.append_nil] at h
  have hC : B.Forked S.start.signatures sig _ :=
    hB.forked (ds ++ []) "then" "else" "ifcont" (t := .condBranch v _ _) rfl fun E hE =>
      .test htest (hE 0 (by omega)) (hE 1 (by omega))
  generalize (B.fork "then" "else" "ifcont").write _ n [] _ = C at h hC
  -- one arm, the other arm, and on in the block behind both
  obtain ⟨D, h, hscD, hD, hclosedD, hpathD⟩ :=
    hyes.arm hC.settled hC.closed (hC.awaits 0 (by omega)) h
  have hwaitD : ∀ j, 0 < j → j < 3 → D.func.Awaits (B.func.blocks.length + j) := fun j hj hj' =>
    (hC.awaits j hj').grows hD.grows (by simp; omega)
  obtain ⟨D', h, hscD', -, hclosedD', hpathD'⟩ :=
    hno.arm hD.settled hclosedD (hwaitD 1 (by omega) (by omega)) h
  have he := (S.emit_positionAtEnd _ (B.func.blocks.length + 2)).symm.trans h
  obtain rfl := Site.state_injective (EStateM.Result.ok.inj he).2
  -- the path takes the same turns; all three blocks are entered in the scopes of the fork
  intro P E hE
  obtain ⟨E₁, hentry, hpath⟩ := hC.path P E hE
  have hlen₁ := hpath.planned hE
  obtain ⟨E₂, hpath₂⟩ :=
    hpathD _ _ hlen₁ (hC.scopes ▸ hentry 0 (by omega)) (hC.scopes ▸ hentry 2 (by omega))
  have hentry₂ : ∀ j, j < 3 → (E ++ E₁ ++ E₂)[B.func.blocks.length + j]? = some D.scopes :=
    fun j hj => by
    rw [hscD, hC.scopes]
    exact entry_append (hentry j hj)
  obtain ⟨E₃, hpath₃⟩ :=
    hpathD' _ _ (hpath₂.planned hlen₁) (hentry₂ 1 (by omega)) (hentry₂ 2 (by omega))
  have hmove := ((hpath.trans hpath₂).trans hpath₃).tail
    (.move hclosedD' (by rw [hscD']; exact entry_append (hentry₂ 2 (by omega))))
  exact ⟨E₁ ++ E₂ ++ E₃, by simpa only [List.append_assoc] using hmove⟩

theorem Stmt.drafts_loop {pos : Nat} {c : Expr} {body : Block} (hbody : body.Drafts S sig) :
    (Stmt.loop pos c body).Drafts S sig := by
  intro B₀ B' hB₀ h
  simp only [Stmt.lower] at h
  refine hB₀.leads_after_comment h fun B hB h => ?_
  have hopen : (B.fork "while" "loop" "cont").closed = false := by
    rw [Body.closed_fork _ _ _ hB.block, hB.reached]
  rw [bind_of_ok (current_state S _), fork_state, bind_of_ok (branchUnlessTerminated_state S _ _),
    Body.join, hopen, if_neg Bool.false_ne_true] at h
  have hC : B.Forked S.start.signatures sig ((B.fork "while" "loop" "cont").write
      [.branch ((B.fork "while" "loop" "cont").func.labelAt B.func.blocks.length)] B.func.registers
        [] []) :=
    hB.forked [] "while" "loop" "cont" rfl fun E hE => .branch _ (hE 0 (by omega))
  rw [Body.fork_registers] at h
  generalize (B.fork "while" "loop" "cont").write _ _ [] _ = C at h hC
  -- the test has a block of its own, since the body branches back to it
  rw [bind_of_ok (S.emit_positionAtEnd C B.func.blocks.length)] at h
  obtain ⟨v, s₁, ht, h⟩ := bind_eq_ok.1 h
  have hready : (C.moveTo B.func.blocks.length).Ready :=
    Body.ready_moveTo hC.settled (hC.awaits 0 (by omega))
  obtain ⟨is, n, ds, htest, rfl, -⟩ := test_code (B := C.moveTo B.func.blocks.length) hC.settled ht
  have hlabel : ∀ i, ((C.moveTo B.func.blocks.length).write is n [] ds).func.labelAt i =
      C.func.labelAt i := fun i =>
    Func.labelAt_write _ _ _ _ _
  rw [bind_of_ok (S.emit_condBranch _ v _ _), hlabel, hlabel, Body.write_write,
    Body.write_registers, List.append_nil] at h
  generalize hF : (C.moveTo B.func.blocks.length).write (is ++ [_]) n [] _ = F at h
  have hCF : (C.moveTo B.func.blocks.length).Becomes F :=
    hF ▸ (Body.Becomes.refl hready.block hready.settled).write _ _ _
  have hclosedF : F.closed = true := hF ▸ Body.closed_write_terminator hready.block is n [] _ rfl
  have hscF : F.scopes = B.scopes := by rw [← hF, ← hC.scopes]; rfl
  obtain ⟨D, h, hscD, hD, hclosedD, hpathD⟩ := hbody.arm (j := B.func.blocks.length) hCF.settled
    hclosedF ((hC.awaits 1 (by omega)).grows hCF.grows (by simp)) h
  have he := (S.emit_positionAtEnd _ (B.func.blocks.length + 2)).symm.trans h
  obtain rfl := Site.state_injective (EStateM.Result.ok.inj he).2
  intro P E hE
  obtain ⟨E₁, hentry, hpath⟩ := hC.path P E hE
  have hmove₁ := hpath.tail (.move hC.closed (hC.scopes ▸ hentry 0 (by omega)))
  have hpath₁ := hmove₁.tail
    (.close (ds ++ []) hready.reached
      (.test htest (hC.scopes ▸ hentry 1 (by omega)) (hC.scopes ▸ hentry 2 (by omega))))
  rw [Body.moveTo_func, hF] at hpath₁
  rw [← hscF] at hentry
  obtain ⟨E₂, hpath₂⟩ :=
    hpathD _ _ (Draft.Path.planned hpath₁ hE) (hentry 1 (by omega)) (hentry 0 (by omega))
  have hmove₂ := (hpath₁.trans hpath₂).tail (.move hclosedD
    (by rw [hscD]; exact entry_append (hentry 2 (by omega))))
  exact ⟨E₁ ++ E₂, by simpa only [List.append_assoc] using hmove₂⟩

theorem Block.drafts_mk {pos : Nat} {ss : List Stmt} (hss : Stmt.ListDrafts S sig ss) :
    (Block.mk pos ss).Drafts S sig := by
  intro B B' hB h
  simp only [Block.lower] at h
  rw [bind_of_ok (pushScope_state S B)] at h
  obtain ⟨_, s₁, hlist, h⟩ := bind_eq_ok.1 h
  obtain ⟨D, rfl, hD⟩ := Stmt.lowerList_code ss _ _ (hB.rescope _) hlist
  obtain ⟨frame, hframe⟩ := (hD.code _ (.refl _)).frames rfl
  have he := (leaveScope_state S hframe).symm.trans h
  obtain rfl := Site.state_injective (EStateM.Result.ok.inj he).2
  refine ((Body.leads_enter hB.reached).trans (hss _ _ (hB.rescope _) hlist)).trans ?_
  split
  · rename_i hc
    exact .of_step fun _ _ => .leave _ hc
  · rename_i hc
    refine Body.leads_write (by simpa using hc) ?_ []
    rw [hframe]
    exact .leave frame _ _

theorem Stmt.listDrafts_cons {s : Stmt} {ss : List Stmt} (hs : s.Drafts S sig)
    (hss : Stmt.ListDrafts S sig ss) :
    Stmt.ListDrafts S sig (s :: ss) := by
  intro B B' hB h
  simp only [Stmt.lowerList] at h
  rw [bind_of_ok (S.emit_isTerminated B), hB.reached] at h
  obtain ⟨_, s₁, hrun, h⟩ := bind_eq_ok.1 h
  obtain ⟨D, rfl, hD⟩ := s.lower_code _ _ hB hrun
  refine (hs _ _ hB hrun).trans ?_
  cases hc : D.closed with
  | false => exact hss _ _ ⟨hD.becomes.block, hD.becomes.settled, hc⟩ h
  | true =>
    cases ss with
    | nil =>
      obtain rfl := Site.state_injective (EStateM.Result.ok.inj h).2
      exact .refl D
    | cons s₂ ss =>
      simp only [Stmt.lowerList] at h
      rw [bind_of_ok (S.emit_isTerminated D), hc] at h
      have he := (S.emit_comment D _).symm.trans h
      obtain rfl := Site.state_injective (EStateM.Result.ok.inj he).2
      exact .of_step fun _ _ => .note _ hc

mutual

theorem Stmt.lower_drafts (hret : S.ret = sig.ret) : ∀ s : Stmt, s.Drafts S sig
  | .declaration pos ty xs => by
    intro B₀ B' hB₀ h
    simp only [Stmt.lower] at h
    refine hB₀.leads_after_comment h fun B hB h => ?_
    obtain ⟨is, n, sc, hcode, he, -⟩ := declareNames_code h
    obtain rfl := Site.state_injective he
    exact Body.leads_write hB.reached (.declare hcode) []
  | .assignment pos x e => by
    intro B₀ B' hB₀ h
    simp only [Stmt.lower] at h
    refine hB₀.leads_after_comment h fun B hB h => ?_
    obtain ⟨is, n, ds, hcode, he, -⟩ := assign_code hB.settled h
    obtain rfl := Site.state_injective he
    exact Body.leads_write hB.reached (.assign hcode) ds
  | .ret pos e => by
    intro B₀ B' hB₀ h
    simp only [Stmt.lower] at h
    refine hB₀.leads_after_comment h fun B hB h => ?_
    obtain ⟨is, v, n, ds, hcode, he, -⟩ := giveBack_code hB.settled h
    obtain rfl := Site.state_injective he
    rw [hret] at hcode
    exact .of_step fun _ _ => .close ds hB.reached (.ret hcode)
  | .ifElse pos c yes no => Stmt.drafts_ifElse (yes.lower_drafts hret) (no.lower_drafts hret)
  | .loop pos c body => Stmt.drafts_loop (body.lower_drafts hret)
  | .block b => fun B B' hB h => b.lower_drafts hret B B' hB (by simpa only [Stmt.lower] using h)

theorem Block.lower_drafts (hret : S.ret = sig.ret) : ∀ b : Block, b.Drafts S sig
  | .mk _ ss => Block.drafts_mk (Stmt.lowerList_drafts hret ss)

theorem Stmt.lowerList_drafts (hret : S.ret = sig.ret) : ∀ ss : List Stmt, Stmt.ListDrafts S sig ss
  | [] => by
    intro B B' hB h
    obtain rfl := Site.state_injective (EStateM.Result.ok.inj h).2
    exact .refl B
  | s :: ss => Stmt.listDrafts_cons (s.lower_drafts hret) (Stmt.lowerList_drafts hret ss)

end

/-- A function that was written from its first block to its last. -/
def Func.Drafted (Γ : Signatures) (F : Func) : Prop :=
  ∃ F₀ B E, F₀.blocks = [] ∧ F₀.registers = 0 ∧
    Draft.Path Γ F.signature ⟨.entry F₀, [], [[]]⟩ ⟨B, [], E⟩ ∧ B.closed = true ∧ B.func = F

theorem leads_fallOff {ret : Ty} {frame : Frame Value} {sc : Scopes Value}
    (hb : B.block < B.func.blocks.length) (hsc : B.scopes = frame :: sc) (hret : ret = sig.ret)
    (h : fallOff ret (S.state B) = .ok () (S.state B')) :
    B.Leads S.start.signatures sig B' ∧ B'.closed = true := by
  have he := (fallOff_state S hsc).symm.trans h
  obtain rfl := Site.state_injective (EStateM.Result.ok.inj he).2
  split
  · rename_i hc
    exact ⟨.refl B, hc⟩
  · rename_i hc
    have hterm : ret.fallInstr.isTerminator = true := by cases ret <;> rfl
    have hclosed :=
      Body.closed_write_terminator hb (freeCode frame.handles) B.func.registers [] [] hterm
    refine ⟨Body.Leads.trans (.of_step fun _ _ => .close [] (by simpa using hc) ?_)
      (.of_step fun _ _ => .leave sc hclosed), hclosed⟩
    rw [hsc, hret]
    exact .fall frame sc _

/-- What is lowered behind the comment that begins a body. -/
theorem leads_body {d : Definition} (hret : S.ret = sig.ret) (hsig : sig = d.prototype.signature)
    (hB : B.Ready) (hsc : B.scopes = [])
    (h : (pushScope >>= fun _ => bindParams S.id 0 d.prototype.params >>= fun _ =>
      Stmt.lowerList d.body.statements >>= fun _ =>
        fallOff d.prototype.ret) (S.state B) = .ok () (S.state B')) :
    B.Leads S.start.signatures sig B' ∧ B'.closed = true := by
  rw [bind_of_ok (pushScope_state S B), hsc] at h
  obtain ⟨_, s₁, hparams, h⟩ := bind_eq_ok.1 h
  obtain ⟨is, n, sc, hcode, rfl⟩ := bindParams_code hparams
  obtain ⟨frame, rfl⟩ := hcode.frames rfl
  obtain ⟨_, s₂, hlist, h⟩ := bind_eq_ok.1 h
  have hready : (((B.rescope [[]]).write is n [] []).rescope [frame]).Ready :=
    ((hB.rescope [[]]).write (fun i hi => (hcode.open i hi).1) n []).rescope [frame]
  obtain ⟨D, rfl, hD⟩ := Stmt.lowerList_code _ _ _ hready hlist
  obtain ⟨last, hlast⟩ := (hD.code _ (.refl _)).frames rfl
  have henter : B.Leads S.start.signatures sig (B.rescope [[]]) := hsc ▸ Body.leads_enter hB.reached
  have hbind : (B.rescope [[]]).Leads S.start.signatures sig
      (((B.rescope [[]]).write is n [] []).rescope [frame]) :=
    Body.leads_write (hB.rescope [[]]).reached (.params (by rw [hsig]; rfl) hcode) []
  have hfallRet : d.prototype.ret = sig.ret := by rw [hsig]; rfl
  obtain ⟨hfall, hclosed⟩ := leads_fallOff hD.becomes.block hlast hfallRet h
  exact ⟨((henter.trans hbind).trans (Stmt.lowerList_drafts hret _ _ _ hready hlist)).trans hfall,
    hclosed⟩

theorem Definition.lowerBody_drafted {d : Definition} {F : Func}
    (hF : S.start.target.function? S.id = some F)
    (hsc : S.start.scopes = []) (hts : S.start.temporaries = []) (hret : S.ret = d.prototype.ret)
    (hblocks : F.blocks = []) (hregs : F.registers = 0) (hsig : F.signature = d.prototype.signature)
    (h : d.lowerBody S.id S.start = .ok () (S.state B)) : B.func.Drafted S.start.signatures := by
  obtain ⟨B', he, hlow⟩ := Definition.lowerBody_code hF hsc hts hret h
  obtain rfl := Site.state_injective he
  have hsignature : B.func.signature = d.prototype.signature :=
    hlow.becomes.grows.signature.trans hsig
  rw [Definition.lowerBody, begin_state hF hsc hts, bind_of_ok (S.emit_comment _ _)] at h
  have hready := Body.ready_entry F
  obtain ⟨hbody, hclosed⟩ := leads_body (by rw [hret, hsignature]; rfl) hsignature
    (hready.write (by simp [Instr.isTerminator]) _ _) rfl h
  have hleads := (Body.leads_write hready.reached (.comment _ _ ("function " ++ d.prototype.print))
    []).trans hbody
  obtain ⟨E, hE⟩ := hleads [] [[]] (by simp [Body.entry, Func.addBlock, hblocks])
  exact ⟨F, B, _, hblocks, hregs, hE, hclosed, rfl⟩

/-- A property that later signatures keep. -/
def Signatures.Stable (Q : Signatures → Func → Prop) : Prop :=
  ∀ Γ Γ' F, (∀ name sig, Γ.find? name = some sig → Γ'.find? name = some sig) → Q Γ F → Q Γ' F

/-- The functions of a state that have a body have a property. -/
def Lowering.Bodies (Q : Signatures → Func → Prop) (s : Lowering Recorder) : Prop :=
  ∀ id F, s.target.function? id = some F → F.blocks ≠ [] → Q s.signatures F

theorem Lowering.Bodies.extend {Q : Signatures → Func → Prop} (hQ : Signatures.Stable Q)
    {s s' : Lowering Recorder} (h : s.Bodies Q)
    (hsig : ∀ name sig, s.signatures.find? name = some sig → s'.signatures.find? name = some sig)
    (hnew : ∀ id F, s'.target.function? id = some F → F.blocks ≠ [] →
      s.target.function? id = some F ∨ Q s'.signatures F) : s'.Bodies Q := by
  intro id F hF hne
  rcases hnew id F hF hne with hold | hnew
  · exact hQ _ _ _ hsig (h id F hold hne)
  · exact hnew

/-- An item adds at most the body that it is lowered to. -/
theorem Lowering.Bodies.after {Q : Signatures → Func → Prop} (hQ : Signatures.Stable Q)
    (hbody : ∀ (s : Lowering Recorder) (d : Definition) (S : Site) (F : Func) (B : Body),
      s.Coherent → d.Begun s S F →
      d.lowerBody S.id S.start = .ok () (S.state B) → Q S.start.signatures B.func)
    {s : Lowering Recorder} (hs : s.Coherent) (h : s.Bodies Q) (item : Item) :
    (Lowering.after item s).Bodies Q := by
  have heffect := item.lower_effect s
  unfold Lowering.after
  generalize item.lower s = r at heffect ⊢
  cases heffect with
  | refused => exact h
  | known hreg =>
    exact h.extend hQ (fun _ _ hf => Signatures.find?_register_mono hreg hf) fun _ _ hF _ => .inl hF
  | @lowered d S F B hb hB hrun =>
    refine h.extend hQ (fun _ _ hf => hb.find?_mono hf) fun id G hG hne => ?_
    rcases Lowering.function?_of_follows hb hB hG with ⟨-, rfl⟩ | ⟨-, hG⟩ | ⟨name, signature, rfl,
      -⟩
    · exact .inr (hQ S.start.signatures _ _ (fun _ _ hf => hf) (hbody s d S F B hs hb hrun))
    · exact .inl hG
    · exact absurd rfl hne
  | @abandoned d S F B e hb hB =>
    refine h.extend hQ (fun _ _ hf => hb.find?_mono hf) fun id G hG hne => ?_
    obtain ⟨hother, hself⟩ := Lowering.function?_failed hb (hs.begun hb).2.2 hB rfl
    by_cases hid : id = S.id
    · subst hid
      rcases hself with ⟨hself, -⟩ | ⟨hself, -⟩
      · obtain rfl := Option.some.inj (hself.symm.trans hG)
        exact absurd rfl hne
      · cases hself.symm.trans hG
    · have hG := (hother id hid).symm.trans hG
      rcases Lowering.function?_of_follows hb hB hG with ⟨rfl, -⟩ | ⟨-, hG⟩ | ⟨name, signature, rfl,
        -⟩
      · contradiction
      · exact .inl hG
      · exact absurd rfl hne

/-- What holds of each body as it is lowered holds of all bodies of a compiled module. -/
theorem compile_bodies {Q : Signatures → Func → Prop} (hQ : Signatures.Stable Q)
    (hbody : ∀ (s : Lowering Recorder) (d : Definition) (S : Site) (F : Func) (B : Body),
      s.Coherent → d.Begun s S F →
      d.lowerBody S.id S.start = .ok () (S.state B) →
      Q S.start.signatures B.func) (source : String) :
    ∃ s : Lowering Recorder,
      s.Coherent ∧ s.Bodies Q ∧ (compile source Recorder.empty).2 = s.target := by
  have hempty : (Lowering.ofTarget Recorder.empty).Bodies Q := by
    intro id F hF
    have hnone : Recorder.empty.function? id = none := rfl
    cases hnone.symm.trans hF
  have hall := Lowering.itemsFrom_induction (P := fun s => s.Coherent ∧ s.Bodies Q)
    (fun s item h => ⟨h.1.after item, h.2.after hQ hbody h.1 item⟩)
      ((Cursor.ofSource source).rest.length + 1)
    (Cursor.ofSource source) _ ⟨Lowering.coherent_empty, hempty⟩
  exact ⟨_, hall.1, hall.2, rfl⟩

/-- The function was drafted under signatures that still hold. -/
def Signatures.Drafts (Γ : Signatures) (F : Func) : Prop :=
  ∃ Γ₀, F.Drafted Γ₀ ∧ ∀ name sig, Γ₀.find? name = some sig → Γ.find? name = some sig

theorem Signatures.stable_drafts : Signatures.Stable Signatures.Drafts := by
  rintro Γ Γ' F hΓ ⟨Γ₀, hF, hΓ₀⟩
  exact ⟨Γ₀, hF, fun name sig h => hΓ name sig (hΓ₀ name sig h)⟩

theorem Definition.Begun.drafts {d : Definition} {s : Lowering Recorder} {S : Site} {F : Func}
    {B : Body} (hs : s.Coherent) (hb : d.Begun s S F)
    (hrun : d.lowerBody S.id S.start = .ok () (S.state B)) :
    S.start.signatures.Drafts B.func := by
  obtain ⟨hblocks, hregs, hsig⟩ := hs.begun hb
  exact ⟨_, Definition.lowerBody_drafted hb.func hb.scopes hb.temporaries hb.ret hblocks hregs hsig
    hrun, fun _ _ h => h⟩

/-- Each body of a compiled module was drafted under signatures that the functions it calls have. -/
theorem compile_drafted (source : String) {F : Func}
    (hF : F ∈ (compile source Recorder.empty).2.toModule.functions) (hbody : F.blocks ≠ []) :
    ∃ Γ, F.Drafted Γ ∧ ∀ dst c args sig, .call dst c args ∈ F.code → Γ.find? c = some sig →
      ∃ G, (compile source Recorder.empty).2.toModule.function? c = some G ∧ G.signature = sig := by
  obtain ⟨s, hs, hdrafted, htarget⟩ := compile_bodies Signatures.stable_drafts
    (fun s d S F B hs hb hrun => hb.drafts hs hrun) source
  rw [htarget] at hF ⊢
  obtain ⟨id, hid⟩ := Recorder.mem_toModule.1 hF
  obtain ⟨Γ, hdraft, hΓ⟩ := hdrafted id F hid hbody
  exact ⟨Γ, hdraft, fun dst c args sig hcall hsig => hs.callee hid hcall (hΓ c sig hsig)⟩

end ImpFront
