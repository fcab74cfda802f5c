import Mathlib
import ImpFront.Proofs.LowerStmt

/-! Lowering a statement with branches. It ends in another block than it began in, so its code is
found in the finished function: in every `G` that goes on from what was written, with what is left
of a block in place of the block. -/

namespace ImpFront

open Lower

variable {S : Site} {B B' : Body}

namespace Body

/-- A body between two statements, where control gets to. -/
structure Ready (B : Body) : Prop where
  block : B.block < B.func.blocks.length
  settled : B.temporaries = []
  reached : B.closed = false

theorem Ready.rescope (h : B.Ready) (sc : Scopes Value) : (B.rescope sc).Ready :=
  ⟨h.block, h.settled, h.reached⟩

/-- What any statements make of a body: more code in its block, more blocks, and no temporaries. -/
structure Becomes (B B' : Body) : Prop where
  grows : Func.Grows B.block B.func B'.func
  next : B'.block = B.block ∨ B.func.blocks.length ≤ B'.block
  block : B'.block < B'.func.blocks.length
  settled : B'.temporaries = []

/-- What is left behind the code in a finished function, if control gets there. -/
def exit (B : Body) (G : Func) : Option (List Instr) :=
  if B.closed then none else some (G.left B.func B.block)

theorem Becomes.refl (hb : B.block < B.func.blocks.length) (ht : B.temporaries = []) :
    B.Becomes B :=
  ⟨.refl _ _, .inl rfl, hb, ht⟩

theorem Becomes.trans {B'' : Body} (h : B.Becomes B') (h' : B'.Becomes B'') : B.Becomes B'' where
  grows := h.grows.trans h'.grows h.next
  next := by
    have := h.grows.length
    rcases h'.next with he | hle
    · rw [he]
      exact h.next
    · exact .inr (this.trans hle)
  block := h'.block
  settled := h'.settled

theorem Becomes.write (h : B.Becomes B') (is : List Instr) (n : Nat)
    (ds : List (String × Signature)) :
    B.Becomes (B'.write is n [] ds) :=
  h.trans ⟨Func.grows_write _ is n _, .inl rfl, by simpa [Body.write, Func.write] using h.block,
    h.settled⟩

theorem Becomes.addBlock (h : B.Becomes B') (hint : String) : B.Becomes (B'.addBlock hint) :=
  h.trans ⟨Func.grows_addBlock _ hint _, .inl rfl,
    by simpa [Body.addBlock, Func.addBlock] using Nat.lt_succ_of_lt h.block,
    h.settled⟩

theorem Becomes.moveTo (h : B.Becomes B') {i : Nat} (hi : B.func.blocks.length ≤ i)
    (hlt : i < B'.func.blocks.length) :
    B.Becomes (B'.moveTo i) :=
  ⟨h.grows, .inr hi, hlt, h.settled⟩

theorem Becomes.rescope (h : B.Becomes B') (sc : Scopes Value) : B.Becomes (B'.rescope sc) :=
  ⟨h.grows, h.next, h.block, h.settled⟩

theorem left_of_write {is : List Instr} {n : Nat} {ts : List Value} {ds : List (String × Signature)}
    {G : Func} (hb : B.block < B.func.blocks.length) (h : B.write is n ts ds = B')
    (hG : B'.func.Begins G) :
    G.left B.func B.block = is ++ G.left B'.func B'.block := by
  subst h
  exact Func.left_write hb hG

/-- The body behind a branch to a block, which is left out where control does not get. -/
def join (B : Body) (i : Nat) : Body :=
  if B.closed then B else B.write [.branch (B.func.labelAt i)] B.func.registers [] []

@[simp] theorem join_scopes (i : Nat) : (B.join i).scopes = B.scopes := by
  unfold join
  split <;> rfl

@[simp] theorem join_registers (i : Nat) : (B.join i).func.registers = B.func.registers := by
  unfold join
  split <;> rfl

theorem Becomes.join (h : B.Becomes B') (i : Nat) : B.Becomes (B'.join i) := by
  unfold Body.join
  split
  · exact h
  · exact h.write _ _ _

/-- In a function that goes on from it, the branch follows where control gets past the code. -/
theorem joinsAt_exit {G : Func} {i : Nat} (hb : B.block < B.func.blocks.length)
    (hi : i < B.func.blocks.length) (h : (B.join i).func.Begins G) :
    JoinsAt (G.labelAt i) (B.exit G) := by
  intro k hk
  unfold exit at hk
  unfold join at h
  split at hk
  · cases hk
  · rename_i hopen
    rw [if_neg hopen] at h
    cases hk
    rw [Func.labelAt_of_begins ((Func.grows_write _ _ _ _).begins.trans h) hi]
    exact ⟨_, Func.left_write hb h⟩

/-- The body with three new blocks. -/
def fork (B : Body) (first second third : String) : Body :=
  ((B.addBlock first).addBlock second).addBlock third

variable (first second third : String)

@[simp] theorem fork_scopes : (B.fork first second third).scopes = B.scopes := rfl

@[simp] theorem fork_registers : (B.fork first second third).func.registers = B.func.registers :=
  rfl

theorem fork_length :
    (B.fork first second third).func.blocks.length = B.func.blocks.length + 3 := by
  simp [fork, addBlock, Func.addBlock]

theorem Becomes.fork (h : B.Becomes B') : B.Becomes (B'.fork first second third) :=
  ((h.addBlock first).addBlock second).addBlock third

theorem fork_getElem? (hb : B.block < B.func.blocks.length) :
    (B.fork first second third).func.blocks[B.block]? = B.func.blocks[B.block]? := by
  simp only [fork, addBlock, Func.addBlock, List.append_assoc]
  rw [List.getElem?_append_left hb]

theorem closed_fork (hb : B.block < B.func.blocks.length) :
    (B.fork first second third).closed = B.closed :=
  congrArg (Option.any BasicBlock.isTerminated) (fork_getElem? first second third hb)

theorem awaits_fork {j : Nat} (hj : j < 3) :
    (B.fork first second third).func.Awaits (B.func.blocks.length + j) := by
  have hl₁ : (B.addBlock first).func.blocks.length = B.func.blocks.length + 1 := by
    simp [addBlock, Func.addBlock]
  have hl₂ :
      ((B.addBlock first).addBlock second).func.blocks.length = B.func.blocks.length + 2 := by
    simp [addBlock, Func.addBlock]
  have h₁ : (B.addBlock first).func.Awaits B.func.blocks.length := Func.awaits_addBlock _ _
  have h₂ : ((B.addBlock first).addBlock second).func.Awaits (B.func.blocks.length + 1) :=
    hl₁ ▸ Func.awaits_addBlock _ _
  have h₃ : (B.fork first second third).func.Awaits (B.func.blocks.length + 2) :=
    hl₂ ▸ Func.awaits_addBlock _ _
  -- growth of a later block leaves the earlier ones alone; any block but the awaited one will do
  have hlater :
      ∀ (C : Body) (hint : String) {i : Nat}, C.func.Awaits i → (C.addBlock hint).func.Awaits i :=
    fun C hint i hi => hi.grows (Func.grows_addBlock (i + 1) hint C.func) (by omega)
  interval_cases j
  · exact hlater _ _ (hlater _ _ h₁)
  · exact hlater _ _ h₂
  · exact h₃

/-- A block that is closed by a branch once the three new ones are there: these wait for their
code. -/
theorem forked (hb : B.block < B.func.blocks.length) (ht : B.temporaries = []) {C : Body}
    {t : Instr} (hC : (B.fork first second third).write [t] B.func.registers [] [] = C) :
    B.Becomes C ∧ (∀ j, j < 3 → C.func.Awaits (B.func.blocks.length + j)) ∧
      ∀ G, C.func.Begins G → (∃ k, G.left B.func B.block = t :: k) ∧
        ∀ j, j < 3 → (B.fork first second third).func.labelAt (B.func.blocks.length + j) =
          G.labelAt (B.func.blocks.length + j) := by
  have hE := (Becomes.refl hb ht).fork first second third
  have hgrows : Func.Grows B.block (B.fork first second third).func C.func :=
    hC ▸ Func.grows_write _ _ _ _
  refine ⟨hC ▸ hE.write _ _ _, fun j hj => (awaits_fork _ _ _ hj).grows hgrows (by omega),
    fun G hG => ⟨?_, fun j hj => ?_⟩⟩
  · rw [← Func.left_congr (fork_getElem? first second third hb)]
    exact ⟨_, left_of_write hE.block hC hG⟩
  · refine (Func.labelAt_of_begins (hgrows.begins.trans hG) ?_).symm
    rw [fork_length]
    omega

end Body

namespace Site

/-- Whatever the function calls is in the target. -/
def Linked (S : Site) (B : Body) : Prop :=
  ∀ i ∈ B.func.code, ∀ c, i.callee? = some c → c ∈ (S.recorder B).names

theorem mem_code_write {F : Func} {b n : Nat} {is : List Instr} {i : Instr}
    (h : i ∈ (F.write b is n).code) :
    i ∈ F.code ∨ i ∈ is := by
  simp only [Func.code, List.mem_flatMap] at h ⊢
  obtain ⟨C, hC, hi⟩ := h
  obtain ⟨j, hj⟩ := List.getElem?_of_mem hC
  simp only [Func.write, List.getElem?_modify] at hj
  obtain ⟨D, hD, rfl⟩ := Option.map_eq_some_iff.1 hj
  have hmem := List.mem_of_getElem? hD
  split at hi
  · rcases List.mem_append.1 hi with hi | hi
    · exact .inl ⟨D, hmem, hi⟩
    · exact .inr hi
  · exact .inl ⟨D, hmem, hi⟩

theorem Linked.write (h : S.Linked B) {is : List Instr} {ds : List (String × Signature)}
    (hl : S.Links B is ds) (n : Nat) (ts : List Value) : S.Linked (B.write is n ts ds) := by
  intro i hi c hc
  rw [names_write]
  rcases mem_code_write hi with hi | hi
  · exact List.mem_append_left _ (h i hi c hc)
  · exact hl i hi c hc

theorem Linked.silent (h : S.Linked B) {i : Instr} (hi : i.callee? = none) (n : Nat)
    (ts : List Value) :
    S.Linked (B.write [i] n ts []) :=
  h.write (.silent (by simpa using hi)) n ts

theorem Linked.of_code (h : S.Linked B) (hn : B'.func.name = B.func.name)
    (hd : B'.declared = B.declared) (hc : ∀ i ∈ B'.func.code, i ∈ B.func.code) : S.Linked B' := by
  intro i hi c hcall
  rw [names_of_name_eq B B' hn [] (by simpa using hd), List.map_nil, List.append_nil]
  exact h i (hc i hi) c hcall

theorem Linked.addBlock (h : S.Linked B) (hint : String) : S.Linked (B.addBlock hint) :=
  h.of_code rfl rfl (by simp [Body.addBlock, Func.addBlock, Func.code])

theorem Linked.moveTo (h : S.Linked B) (i : Nat) : S.Linked (B.moveTo i) :=
  h.of_code rfl rfl fun _ hi => hi

theorem Linked.rescope (h : S.Linked B) (sc : Scopes Value) : S.Linked (B.rescope sc) :=
  h.of_code rfl rfl fun _ hi => hi

theorem Linked.join (h : S.Linked B) (i : Nat) : S.Linked (B.join i) := by
  unfold Body.join
  split
  · exact h
  · exact h.silent rfl _ _

/-- A body that was lowered up to here, with what every function that goes on from it holds. -/
structure Lowered (S : Site) (B B' : Body) (P : Func → Prop) : Prop where
  becomes : B.Becomes B'
  linked : S.Linked B → S.Linked B'
  code : ∀ G, B'.func.Begins G → P G

end Site

theorem branchUnlessTerminated_state (S : Site) (B : Body) (i : Nat) :
    branchUnlessTerminated ⟨S.id, ⟨i⟩⟩ (S.state B) = .ok () (S.state (B.join i)) := by
  refine (bind_of_ok (S.emit_isTerminated B)).trans ?_
  unfold Body.join
  cases B.closed
  · exact S.emit_branch B i
  · rfl

theorem fork_state {α : Type} (S : Site) (B : Body) (first second third : String)
    (k : BlockRef → BlockRef → BlockRef → Lower Recorder α) :
    (emit (.appendBlock S.id first) >>= fun a => emit (.appendBlock S.id second) >>= fun b =>
      emit (.appendBlock S.id third) >>= fun c => k a b c) (S.state B) =
    k ⟨S.id, ⟨B.func.blocks.length⟩⟩ ⟨S.id, ⟨B.func.blocks.length + 1⟩⟩ ⟨S.id,
      ⟨B.func.blocks.length + 2⟩⟩
      (S.state (B.fork first second third)) := by
  rw [bind_of_ok (S.emit_appendBlock _ _), bind_of_ok (S.emit_appendBlock _ _),
    bind_of_ok (S.emit_appendBlock _ _)]
  simp [Body.fork, Body.addBlock, Func.addBlock]

theorem Body.Ready.write (hB : B.Ready) {is : List Instr} (hopen : ∀ i ∈ is, i.isTerminator = false)
    (n : Nat) (ds : List (String × Signature)) : (B.write is n [] ds).Ready :=
  ⟨by simpa [Body.write, Func.write] using hB.block, hB.settled,
    Body.closed_write_open hB.block n [] ds hB.reached hopen⟩

/-- Straight code: what is left of the block begins with it. -/
theorem lowered_straight (hB : B.Ready) {is : List Instr} {n : Nat} (ds : List (String × Signature))
    (sc : Scopes Value) (hopen : ∀ i ∈ is, i.isTerminator = false) (hl : S.Links B is ds) :
    S.Lowered B ((B.write is n [] ds).rescope sc) fun G =>
      ∃ k, G.left B.func B.block = is ++ k ∧ ((B.write is n [] ds).rescope sc).exit G = some k where
  becomes := ((Body.Becomes.refl hB.block hB.settled).write is n ds).rescope sc
  linked h := (h.write hl n []).rescope sc
  code G hG := by
    refine ⟨_, Func.left_write hB.block hG, ?_⟩
    rw [Body.exit, ((hB.write hopen n ds).rescope sc).reached]
    rfl

def Block.Lowers (S : Site) (b : Block) : Prop :=
  ∀ (B : Body) (s' : Lowering Recorder), B.Ready → b.lower (S.state B) = .ok () s' →
    ∃ B', s' = S.state B' ∧ B'.scopes = B.scopes ∧ S.Lowered B B' fun G =>
      BlockCode S.start.signatures S.ret G B.scopes b B.func.registers (G.left B.func B.block)
        B'.func.registers (B'.exit G)

def Stmt.Lowers (S : Site) (s : Stmt) : Prop :=
  ∀ (B : Body) (s' : Lowering Recorder), B.Ready → s.lower (S.state B) = .ok () s' →
    ∃ B', s' = S.state B' ∧ S.Lowered B B' fun G =>
      StmtCode S.start.signatures S.ret G B.scopes s B.func.registers (G.left B.func B.block)
        B'.scopes B'.func.registers
        (B'.exit G)

def Stmt.ListLowers (S : Site) (ss : List Stmt) : Prop :=
  ∀ (B : Body) (s' : Lowering Recorder), B.Ready → Stmt.lowerList ss (S.state B) = .ok () s' →
    ∃ B', s' = S.state B' ∧ S.Lowered B B' fun G =>
      ListCode S.start.signatures S.ret G B.scopes ss B.func.registers (G.left B.func B.block)
        B'.scopes B'.func.registers
        (B'.exit G)

theorem Body.ready_moveTo {i : Nat} (ht : B.temporaries = []) (h : B.func.Awaits i) :
    (B.moveTo i).Ready :=
  ⟨h.lt, ht, Body.closed_of_awaits (B := B.moveTo i) h⟩

theorem Body.exit_moveTo {G : Func} {i : Nat} (h : B.func.Awaits i) :
    (B.moveTo i).exit G = some (G.left B.func i) := by
  rw [exit, Body.closed_of_awaits (B := B.moveTo i) h]
  rfl

/-- A block of statements as an arm of a branch: it is written to a block that waits and joins
another one. -/
theorem Block.Lowers.arm {b : Block} {C : Body} {i j : Nat} {k : Unit → Lower Recorder Unit}
    {s' : Lowering Recorder} (hb : b.Lowers S)
    (hC : C.temporaries = []) (hi : C.func.Awaits i) (hj : j < C.func.blocks.length)
    (h : (emit (.positionAtEnd ⟨S.id, ⟨i⟩⟩) >>= fun _ => b.lower >>= fun _ =>
      branchUnlessTerminated ⟨S.id, ⟨j⟩⟩ >>= k) (S.state C) = .ok () s') :
    ∃ D, k () (S.state D) = .ok () s' ∧ D.scopes = C.scopes ∧ S.Lowered (C.moveTo i) D fun G =>
      ∃ A r, G.block? (G.labelAt i) = some A ∧
        BlockCode S.start.signatures S.ret G C.scopes b C.func.registers A.code D.func.registers r ∧
        JoinsAt (G.labelAt j) r := by
  rw [bind_of_ok (S.emit_positionAtEnd C i)] at h
  obtain ⟨_, s₁, hrun, h⟩ := bind_eq_ok.1 h
  obtain ⟨D, rfl, hsc, hlow⟩ := hb _ _ (Body.ready_moveTo hC hi) hrun
  rw [bind_of_ok (branchUnlessTerminated_state S D j)] at h
  refine ⟨D.join j, h, by simpa using hsc, hlow.becomes.join j, fun hl => (hlow.linked hl).join j,
    fun G hG => ?_⟩
  have hD : D.func.Begins G :=
    (((Body.Becomes.refl hlow.becomes.block hlow.becomes.settled).join j).grows.begins).trans hG
  obtain ⟨A, hA, hcode⟩ := hi.block? (hlow.becomes.grows.begins.trans hD)
  refine ⟨A, D.exit G, hA, ?_,
    Body.joinsAt_exit hlow.becomes.block (lt_of_lt_of_le hj hlow.becomes.grows.length) hG⟩
  rw [hcode, Body.join_registers]
  exact hlow.code G hD

theorem Stmt.lowers_ifElse {pos : Nat} {c : Expr} {yes no : Block} (hyes : yes.Lowers S)
    (hno : no.Lowers S) :
    (Stmt.ifElse pos c yes no).Lowers S := by
  intro B s' hB h
  simp only [Stmt.lower] at h
  rw [bind_of_ok (S.emit_comment B _), bind_of_ok (current_state S _)] at h
  obtain ⟨v, s₁, ht, h⟩ := bind_eq_ok.1 h
  obtain ⟨is, n, ds, htest, rfl, hlinks⟩ := test_code (by simpa using hB.settled) ht
  simp only [Body.write_write, List.append_nil, List.nil_append] at h
  generalize hB₁ : B.write (_ ++ is) n [] ds = B₁ at h
  rw [fork_state, bind_of_ok (S.emit_condBranch _ v _ _)] at h
  have hlen : B₁.func.blocks.length = B.func.blocks.length := by
    simp [← hB₁, Body.write, Func.write]
  have h₁ : B.Becomes B₁ := hB₁ ▸ (Body.Becomes.refl hB.block hB.settled).write _ _ _
  generalize hC : (B₁.fork "then" "else" "ifcont").write [_] _ [] [] = C at h
  obtain ⟨h₂, hwait, hcodeC⟩ := Body.forked _ _ _ h₁.block h₁.settled hC
  obtain ⟨m, hm⟩ : ∃ m, m = B₁.func.blocks.length := ⟨_, rfl⟩
  rw [← hm] at h hwait hlen
  obtain ⟨D, h, hscD, hD⟩ := hyes.arm h₂.settled (hwait 0 (by omega)) (hwait 2 (by omega)).lt h
  have hwaitD : ∀ j, 0 < j → j < 3 → D.func.Awaits (m + j) := fun j hj hj' =>
    (hwait j hj').grows hD.becomes.grows (by simp; omega)
  obtain ⟨D', h, hscD', hD'⟩ := hno.arm hD.becomes.settled (hwaitD 1 (by omega) (by omega))
    (hwaitD 2 (by omega) (by omega)).lt h
  have hwaitD' : D'.func.Awaits (m + 2) :=
    (hwaitD 2 (by omega) (by omega)).grows hD'.becomes.grows (by simp)
  have hs' := (S.emit_positionAtEnd _ (m + 2)).symm.trans h
  cases hs'
  have hBD : B.Becomes D :=
    ((h₁.trans h₂).moveTo (by omega) (hwait 0 (by omega)).lt).trans hD.becomes
  have hBD' : B.Becomes D' :=
    (hBD.moveTo (by omega) (hwaitD 1 (by omega) (by omega)).lt).trans hD'.becomes
  refine ⟨D'.moveTo (m + 2), rfl, hBD'.moveTo (by omega) hwaitD'.lt, fun hl => ?_, fun G hG => ?_⟩
  · have hl₁ : S.Linked B₁ :=
      hB₁ ▸ hl.write (Site.Links.append (.silent (by simp [Instr.callee?])) _ _ hlinks) _ _
    have hl₂ : S.Linked C := hC ▸ (((hl₁.addBlock _).addBlock _).addBlock _).silent rfl _ _
    exact (hD'.linked ((hD.linked (hl₂.moveTo _)).moveTo _)).moveTo _
  · obtain ⟨Bn, rn, hBn, hnoCode, hjn⟩ := hD'.code G hG
    have hGD : D.func.Begins G := hD'.becomes.grows.begins.trans hG
    obtain ⟨By, ry, hBy, hyesCode, hjy⟩ := hD.code G hGD
    obtain ⟨Ba, hBa, hcode⟩ := hwaitD'.block? hG
    have hGC : C.func.Begins G := hD.becomes.grows.begins.trans hGD
    obtain ⟨⟨k, hk⟩, hlabel⟩ := hcodeC G hGC
    rw [hlabel 1 (by omega), ← Nat.add_zero B₁.func.blocks.length, hlabel 0 (by omega),
      Nat.add_zero, ← hm] at hk
    rw [Body.left_of_write hB.block hB₁ (h₂.grows.begins.trans hGC), hk, Body.exit_moveTo hwaitD',
      ← hcode]
    have hscC : C.scopes = B.scopes := by rw [← hC, ← hB₁]; rfl
    have hreg : C.func.registers = n := by rw [← hC, ← hB₁]; rfl
    rw [hscC, hreg] at hyesCode
    rw [hscD, hscC] at hnoCode
    simp only [Body.moveTo_scopes, hscD', hscD, hscC, List.append_assoc, List.cons_append]
    exact .ifElse pos htest hBy hBn hBa hyesCode hjy hnoCode hjn

theorem Stmt.lowers_loop {pos : Nat} {c : Expr} {body : Block} (hbody : body.Lowers S) :
    (Stmt.loop pos c body).Lowers S := by
  intro B s' hB h
  simp only [Stmt.lower] at h
  rw [bind_of_ok (S.emit_comment B _), bind_of_ok (current_state S _)] at h
  generalize hB₁ : B.write [_] _ [] [] = B₁ at h
  have hlen : B₁.func.blocks.length = B.func.blocks.length := by
    simp [← hB₁, Body.write, Func.write]
  have h₁ : B.Becomes B₁ := hB₁ ▸ (Body.Becomes.refl hB.block hB.settled).write _ _ _
  have hopen : (B₁.fork "while" "loop" "cont").closed = false := by
    rw [Body.closed_fork _ _ _ h₁.block, ← hB₁, Body.closed_write_comment hB.block, hB.reached]
  rw [fork_state, bind_of_ok (branchUnlessTerminated_state S _ _), Body.join, hopen,
    if_neg Bool.false_ne_true] at h
  generalize hC : (B₁.fork "while" "loop" "cont").write [_] _ [] [] = C at h
  obtain ⟨h₂, hwait, hcodeC⟩ := Body.forked _ _ _ h₁.block h₁.settled hC
  obtain ⟨m, hm⟩ : ∃ m, m = B₁.func.blocks.length := ⟨_, rfl⟩
  rw [← hm] at h hwait hlen
  rw [bind_of_ok (S.emit_positionAtEnd C m)] at h
  obtain ⟨v, s₁, ht, h⟩ := bind_eq_ok.1 h
  obtain ⟨is, n, ds, htest, rfl, hlinks⟩ := test_code (B := C.moveTo m) h₂.settled ht
  rw [bind_of_ok (S.emit_condBranch _ v _ _), Body.write_write] at h
  generalize hE : (C.moveTo m).write (is ++ [_]) _ _ _ = E at h
  have h₃ : (C.moveTo m).Becomes E := 
    hE ▸ (Body.Becomes.refl (B := C.moveTo m) (hwait 0 (by omega)).lt h₂.settled).write _ _ _
  have hwaitE : ∀ j, 0 < j → j < 3 → E.func.Awaits (m + j) := fun j hj hj' =>
    (hwait j hj').grows h₃.grows (by simp; omega)
  obtain ⟨D, h, hscD, hD⟩ := hbody.arm h₃.settled (hwaitE 1 (by omega) (by omega))
    (lt_of_lt_of_le (hwait 0 (by omega)).lt h₃.grows.length) h
  have hwaitD : D.func.Awaits (m + 2) :=
    (hwaitE 2 (by omega) (by omega)).grows hD.becomes.grows (by simp)
  have hs' := (S.emit_positionAtEnd _ (m + 2)).symm.trans h
  cases hs'
  have hBE : B.Becomes E := ((h₁.trans h₂).moveTo (by omega) (hwait 0 (by omega)).lt).trans h₃
  have hBD : B.Becomes D :=
    (hBE.moveTo (by omega) (hwaitE 1 (by omega) (by omega)).lt).trans hD.becomes
  refine ⟨D.moveTo (m + 2), rfl, hBD.moveTo (by omega) hwaitD.lt, fun hl => ?_, fun G hG => ?_⟩
  · have hl₁ : S.Linked B₁ := hB₁ ▸ hl.silent rfl _ _
    have hl₂ : S.Linked C := hC ▸ (((hl₁.addBlock _).addBlock _).addBlock _).silent rfl _ _
    have hl₃ : S.Linked E :=
      hE ▸ (hl₂.moveTo m).write (hlinks.append n [] (.silent (by simp [Instr.callee?]))) _ _
    exact (hD.linked (hl₃.moveTo _)).moveTo _
  · obtain ⟨Bb, rb, hBb, hbodyCode, hj⟩ := hD.code G hG
    have hGE : E.func.Begins G := hD.becomes.grows.begins.trans hG
    have hGC : C.func.Begins G := h₃.grows.begins.trans hGE
    obtain ⟨Ba, hBa, hcode⟩ := hwaitD.block? hG
    obtain ⟨Bc, hBc, hcodeBc⟩ := (hwait 0 (by omega)).block? hGC
    obtain ⟨⟨k, hk⟩, hlabel⟩ := hcodeC G hGC
    rw [← Nat.add_zero B₁.func.blocks.length, hlabel 0 (by omega), Nat.add_zero, ← hm] at hk
    have hlabelC : ∀ j, j < 3 →
        ((C.moveTo m).write is n [] ds).func.labelAt (m + j) = G.labelAt (m + j) := fun j hj =>
      (Func.labelAt_write _ _ _ _ _).trans (Func.labelAt_of_begins hGC (hwait j hj).lt).symm
    have hleft := Body.left_of_write (B := C.moveTo m) (hwait 0 (by omega)).lt hE hGE
    rw [hlabelC 1 (by omega), hlabelC 2 (by omega), List.append_assoc, List.singleton_append]
      at hleft
    have hscC : C.scopes = B.scopes := by rw [← hC, ← hB₁]; rfl
    have hscE : E.scopes = B.scopes := by rw [← hE, ← hscC]; rfl
    have hregC : C.func.registers = B.func.registers := by rw [← hC, ← hB₁]; rfl
    have hregE : E.func.registers = n := by rw [← hE]; rfl
    rw [Body.left_of_write hB.block hB₁ (h₂.grows.begins.trans hGC), hk, Body.exit_moveTo hwaitD,
      ← hcode]
    rw [hscE, hregE] at hbodyCode
    simp only [Body.moveTo_scopes, Body.moveTo_func, hscC, hregC] at htest
    simp only [Body.moveTo_scopes, hscD, hscE]
    exact .loop pos hBc hBb hBa htest (hcodeBc.trans hleft) hbodyCode hj

theorem leaveScope_state {frame : Frame Value} {sc : Scopes Value} (S : Site)
    (hsc : B.scopes = frame :: sc) :
    leaveScope (S.state B) = .ok () (S.state (if B.closed then B.rescope sc
      else (B.write (leaveCode frame.handles) B.func.registers [] []).rescope sc)) := by
  have hpop : popScope (S.state B) = .ok frame (S.state (B.rescope sc)) := by
    have hs : (S.state B).scopes = frame :: sc := hsc
    simp only [popScope, hs]
    rfl
  refine (bind_of_ok hpop).trans ((bind_of_ok (S.emit_isTerminated _)).trans ?_)
  rw [show (B.rescope sc).closed = B.closed from rfl]
  cases B.closed
  · cases hf : frame.handles with
    | nil => simp [leaveCode, freeCode, release, pure_apply]
    | cons v vs =>
      refine (bind_of_ok (S.emit_comment (B.rescope sc) _)).trans ((release_state S _ _).trans ?_)
      simp [leaveCode, freeCode]
  · rfl

theorem Block.lowers_mk {pos : Nat} {ss : List Stmt} (hss : Stmt.ListLowers S ss) :
    (Block.mk pos ss).Lowers S := by
  intro B s' hB h
  simp only [Block.lower] at h
  rw [bind_of_ok (pushScope_state S B)] at h
  obtain ⟨_, s₁, hlist, h⟩ := bind_eq_ok.1 h
  obtain ⟨D, rfl, hD⟩ := hss _ _ (hB.rescope _) hlist
  have hBD : B.Becomes D :=
    ⟨hD.becomes.grows, hD.becomes.next, hD.becomes.block, hD.becomes.settled⟩
  have hlinked : S.Linked B → S.Linked D := fun hl => hD.linked (hl.rescope _)
  obtain ⟨frame, hframe⟩ := (hD.code _ (.refl _)).frames rfl
  have he := (leaveScope_state S hframe).symm.trans h
  cases he
  refine ⟨_, rfl, ?_⟩
  cases hc : D.closed with
  | true =>
    refine ⟨rfl, hBD.rescope _, fun hl => (hlinked hl).rescope _, fun G hG => ?_⟩
    have hcode := hD.code G hG
    rw [hframe, Body.exit, hc] at hcode
    rw [Body.exit, if_pos rfl, show (D.rescope B.scopes).closed = true from hc]
    exact .closed pos hcode
  | false =>
    have hleave := lowered_straight (S := S) (B := D) (n := D.func.registers)
      ⟨hBD.block, hBD.settled, hc⟩ [] B.scopes (leaveCode_open frame.handles)
        (.silent (callee?_of_mem_leaveCode _))
    refine ⟨rfl, hBD.trans hleave.becomes, fun hl => hleave.linked (hlinked hl), fun G hG => ?_⟩
    obtain ⟨k, hk, hexit⟩ := hleave.code G hG
    have hcode := hD.code G (hleave.becomes.grows.begins.trans hG)
    rw [hframe, Body.exit, hc, if_neg Bool.false_ne_true, hk] at hcode
    rw [if_neg Bool.false_ne_true, hexit]
    exact .left pos hcode

theorem Stmt.listLowers_cons {s : Stmt} {ss : List Stmt} (hs : s.Lowers S)
    (hss : Stmt.ListLowers S ss) :
    Stmt.ListLowers S (s :: ss) := by
  intro B s' hB h
  simp only [Stmt.lowerList] at h
  rw [bind_of_ok (S.emit_isTerminated B), hB.reached] at h
  obtain ⟨_, s₁, hrun, h⟩ := bind_eq_ok.1 h
  obtain ⟨D, rfl, hD⟩ := hs _ _ hB hrun
  cases hc : D.closed with
  | false =>
    obtain ⟨D', rfl, hD'⟩ := hss D _ ⟨hD.becomes.block, hD.becomes.settled, hc⟩ h
    refine ⟨D', rfl, hD.becomes.trans hD'.becomes, fun hl => hD'.linked (hD.linked hl),
      fun G hG => ?_⟩
    have hcode := hD.code G (hD'.becomes.grows.begins.trans hG)
    rw [Body.exit, hc] at hcode
    exact .cons hcode (hD'.code G hG)
  | true =>
    -- nothing is lowered any more: what remains is at most counted in a comment
    have hrest :
        ∃ D', s' = S.state D' ∧ D.Becomes D' ∧ (S.Linked D → S.Linked D') ∧ D'.closed = true ∧
        D'.scopes = D.scopes ∧ D'.func.registers = D.func.registers := by
      cases ss with
      | nil =>
        cases h
        exact ⟨D, rfl, .refl hD.becomes.block hD.becomes.settled, fun hl => hl, hc, rfl, rfl⟩
      | cons s₂ ss =>
        simp only [Stmt.lowerList] at h
        rw [bind_of_ok (S.emit_isTerminated D), hc] at h
        have he := (S.emit_comment D _).symm.trans h
        cases he
        refine ⟨_, rfl, (Body.Becomes.refl hD.becomes.block hD.becomes.settled).write _ _ _,
          fun hl => hl.silent rfl _ _, ?_, rfl, rfl⟩
        rw [Body.closed_write_comment hD.becomes.block, hc]
    obtain ⟨D', rfl, hDD', hlinked, hc', hsc, hreg⟩ := hrest
    refine ⟨D', rfl, hD.becomes.trans hDD', fun hl => hlinked (hD.linked hl), fun G hG => ?_⟩
    have hcode := hD.code G (hDD'.grows.begins.trans hG)
    rw [Body.exit, hc] at hcode
    rw [Body.exit, hc', hsc, hreg]
    exact .closed ss hcode

theorem Stmt.lowers_straight {s : Stmt} {is : List Instr} {n : Nat} {ds : List (String × Signature)}
    (sc : Scopes Value)
    (hB : B.Ready) (hopen : ∀ i ∈ is, i.isTerminator = false) (hl : S.Links B is ds) (hcode : ∀ G k,
      StmtCode S.start.signatures S.ret G B.scopes s B.func.registers (is ++ k) sc n (some k)) :
    ∃ B', S.state ((B.write is n [] ds).rescope sc) = S.state B' ∧ S.Lowered B B' fun G =>
      StmtCode S.start.signatures S.ret G B.scopes s B.func.registers (G.left B.func B.block)
        B'.scopes B'.func.registers
        (B'.exit G) := by
  have h := lowered_straight (n := n) hB ds sc hopen hl
  refine ⟨_, rfl, h.becomes, h.linked, fun G hG => ?_⟩
  obtain ⟨k, hk, hexit⟩ := h.code G hG
  rw [hk, hexit]
  exact hcode G k

mutual

theorem Stmt.lower_code : ∀ (s : Stmt), s.Lowers S
  | .declaration pos ty xs => by
    intro B s' hB h
    simp only [Stmt.lower] at h
    rw [bind_of_ok (S.emit_comment B _)] at h
    obtain ⟨is, n, sc, hcode, rfl, hcall⟩ := declareNames_code h
    rw [Body.write_write]
    refine Stmt.lowers_straight _ hB ?_ (.silent ?_) fun G k => .declaration pos hcode
    · exact List.forall_mem_cons.2 ⟨rfl, hcode.open⟩
    · exact List.forall_mem_cons.2 ⟨rfl, hcall⟩
  | .assignment pos x e => by
    intro B s' hB h
    simp only [Stmt.lower] at h
    rw [bind_of_ok (S.emit_comment B _)] at h
    obtain ⟨is, n, ds, hcode, rfl, hlinks⟩ := assign_code (by simpa using hB.settled) h
    rw [Body.write_write]
    refine Stmt.lowers_straight B.scopes hB ?_ ?_ fun G k => .assignment pos hcode
    · exact List.forall_mem_cons.2 ⟨rfl, hcode.open⟩
    · exact Site.Links.append (.silent (by simp [Instr.callee?])) _ _ hlinks
  | .ret pos e => by
    intro B s' hB h
    simp only [Stmt.lower] at h
    rw [bind_of_ok (S.emit_comment B _)] at h
    obtain ⟨is, v, n, ds, hcode, rfl, hlinks⟩ := giveBack_code (by simpa using hB.settled) h
    rw [Body.write_write, ← List.append_assoc]
    refine ⟨_, rfl, (Body.Becomes.refl hB.block hB.settled).write _ _ _, fun hl => ?_,
      fun G hG => ?_⟩
    · rw [List.append_assoc]
      exact hl.write (Site.Links.append (.silent (by simp [Instr.callee?])) _ _ hlinks) _ _
    · rw [Body.exit, Body.closed_write_terminator hB.block _ n _ _ rfl,
        Body.left_of_write hB.block rfl hG]
      simp only [List.append_assoc, List.cons_append]
      exact .ret pos hcode
  | .ifElse pos c yes no => Stmt.lowers_ifElse yes.lower_code no.lower_code
  | .loop pos c body => Stmt.lowers_loop body.lower_code
  | .block b => by
    intro B s' hB h
    obtain ⟨B', rfl, hsc, hB'⟩ := Block.lower_code b B s' hB (by simpa only [Stmt.lower] using h)
    refine ⟨B', rfl, hB'.becomes, hB'.linked, fun G hG => ?_⟩
    rw [hsc]
    exact .block (hB'.code G hG)

theorem Block.lower_code : ∀ (b : Block), b.Lowers S
  | .mk _ ss => Block.lowers_mk (Stmt.lowerList_code ss)

theorem Stmt.lowerList_code : ∀ (ss : List Stmt), Stmt.ListLowers S ss
  | [] => by
    intro B s' hB h
    cases h
    refine ⟨B, rfl, .refl hB.block hB.settled, fun hl => hl, fun G _ => ?_⟩
    rw [Body.exit, hB.reached]
    exact .nil ..
  | s :: ss => Stmt.listLowers_cons s.lower_code (Stmt.lowerList_code ss)

end

end ImpFront
