import Mathlib
import ImpFront.Proofs.Draft

/-! Control flow of compiled functions. A block is open until a terminator ends it, and in a draft
the only open blocks are the one that is written to and those that wait. In a finished function none
waits and the last one is closed. -/

namespace ImpFront

/-- The labels that an instruction branches to. -/
def Instr.targets : Instr → List String
  | .branch target => [target]
  | .condBranch _ yes no => [yes, no]
  | _ => []

theorem Instr.targets_of_isTerminator {i : Instr} (h : i.isTerminator = false) :
    i.targets = [] := by
  cases i <;> simp_all [isTerminator, targets]

namespace BasicBlock

/-- No terminator yet. -/
def Open (b : BasicBlock) : Prop := ∀ i ∈ b.code, i.isTerminator = false

/-- One terminator, and nothing but comments behind it. -/
def Ended (b : BasicBlock) : Prop :=
  ∃ pre t post,
    b.code = pre ++ t :: post ∧ (∀ i ∈ pre, i.isTerminator = false) ∧ t.isTerminator = true ∧
    ∀ i ∈ post, i.isComment = true

variable {b : BasicBlock} {is : List Instr}

theorem Open.append (h : b.Open) (his : ∀ i ∈ is, i.isTerminator = false) :
    (BasicBlock.mk b.label (b.code ++ is)).Open :=
  List.forall_mem_append.2 ⟨h, his⟩

theorem Open.ended (h : b.Open) (his : ∀ i ∈ is, i.isTerminator = false) {t : Instr}
    (ht : t.isTerminator = true) :
    (BasicBlock.mk b.label (b.code ++ (is ++ [t]))).Ended :=
  ⟨b.code ++ is, t, [], by simp, List.forall_mem_append.2 ⟨h, his⟩, ht, by simp⟩

theorem Ended.comment (h : b.Ended) (text : String) :
    (BasicBlock.mk b.label (b.code ++ [.comment text])).Ended := by
  obtain ⟨pre, t, post, hcode, hpre, ht, hpost⟩ := h
  refine ⟨pre, t, post ++ [.comment text], by simp [hcode], hpre, ht,
    List.forall_mem_append.2 ⟨hpost, ?_⟩⟩
  simp [Instr.isComment]

theorem Open.isTerminated (h : b.Open) : b.isTerminated = false := by
  simpa using isTerminated_append_open (B := ⟨b.label, []⟩) rfl h

theorem Ended.isTerminated (h : b.Ended) : b.isTerminated = true := by
  obtain ⟨pre, t, post, hcode, -, ht, hpost⟩ := h
  have hc : t.isComment = false := by cases t <;> simp_all [Instr.isTerminator, Instr.isComment]
  have hfilter : post.filter (fun i => !i.isComment) = [] := List.filter_eq_nil_iff.2 fun i hi => by
    simp [hpost i hi]
  simp [BasicBlock.isTerminated, hcode, hc, ht, hfilter]

end BasicBlock

theorem StraightCode.open {Γ : Signatures} {sig : Signature} {sc sc' : Scopes Value} {n n' : Nat}
    {is : List Instr} (h : StraightCode Γ sig sc n is sc' n') :
    ∀ i ∈ is, i.isTerminator = false := by
  cases h with
  | comment => simp [Instr.isTerminator]
  | params _ h => exact fun i hi => (h.open i hi).1
  | declare h => exact h.open
  | assign h => exact h.open
  | enter => simp
  | leave => exact leaveCode_open _

theorem ResultCode.open {sc : Scopes Value} {ret : Ty} {e : Expr} {v w : Value} {ts us : List Value}
    {n n' : Nat} {is : List Instr} (h : ResultCode sc ret e v ts n is w us n') :
    ∀ i ∈ is, i.isTerminator = false := by
  cases h <;> simp [Instr.isTerminator]

theorem ReturnCode.open {Γ : Signatures} {ret : Ty} {sc : Scopes Value} {e : Expr} {n n' : Nat}
    {is : List Instr} {v : Value} (h : ReturnCode Γ ret sc e n is v n') :
    ∀ i ∈ is, i.isTerminator = false := by
  cases h with
  | mk he hc hr =>
    simp only [List.forall_mem_append]
    exact ⟨⟨⟨⟨he.open, fun i hi => Instr.isTerminator_of_isData (hc.data i hi)⟩, hr.open⟩,
      settleCode_open _⟩, freeCode_open _⟩

theorem EndCode.open {Γ : Signatures} {sig : Signature} {F : Func} {E : List (Scopes Value)}
    {sc : Scopes Value} {n n' : Nat} {is : List Instr} {t : Instr}
    (h : EndCode Γ sig F E sc n is t n') :
    (∀ i ∈ is, i.isTerminator = false) ∧ t.isTerminator = true := by
  cases h with
  | ret h => exact ⟨h.open, rfl⟩
  | fall => exact ⟨freeCode_open _, by cases sig.ret <;> rfl⟩
  | branch => exact ⟨by simp, rfl⟩
  | test h => exact ⟨h.open, rfl⟩

theorem Func.labelAt_mem {F : Func} {i : Nat} (h : i < F.blocks.length) :
    F.labelAt i ∈ F.blocks.map BasicBlock.label := by
  rw [labelAt, List.getElem?_eq_getElem h]
  exact List.mem_map_of_mem (List.getElem_mem h)

theorem EndCode.targets {Γ : Signatures} {sig : Signature} {F : Func} {E : List (Scopes Value)}
    {sc : Scopes Value} {n n' : Nat} {is : List Instr} {t : Instr}
    (h : EndCode Γ sig F E sc n is t n') (hE : E.length = F.blocks.length) :
    ∀ i ∈ is ++ [t], ∀ l ∈ i.targets, l ∈ F.blocks.map BasicBlock.label := by
  have hlabel : ∀ {i : Nat}, E[i]? = some sc → F.labelAt i ∈ F.blocks.map BasicBlock.label :=
    fun hi =>
    Func.labelAt_mem (hE ▸ (List.getElem?_eq_some_iff.1 hi).1)
  rw [List.forall_mem_append, List.forall_mem_singleton]
  refine ⟨fun i hi => by simp [Instr.targets_of_isTerminator (h.open.1 i hi)], ?_⟩
  cases h with
  | ret => simp [Instr.targets]
  | fall => cases sig.ret <;> simp [Ty.fallInstr, Instr.targets]
  | branch _ hi => exact List.forall_mem_singleton.2 (hlabel hi)
  | test _ hi hj =>
    exact List.forall_mem_cons.2 ⟨hlabel hi, List.forall_mem_singleton.2 (hlabel hj)⟩

namespace Draft

structure Formed (D : Draft) : Prop where
  planned : D.Planned
  block : D.body.block < D.body.func.blocks.length
  first : D.body.func.blocks.head?.map BasicBlock.label = some "entry"
  labels : (D.body.func.blocks.map BasicBlock.label).Nodup
  nodup : (D.body.block :: D.pending).Nodup
  pending : ∀ i ∈ D.pending, ∃ l, D.body.func.blocks[i]? = some ⟨l, []⟩
  blocks :
    ∀ i b, D.body.func.blocks[i]? = some b → b.Ended ∨ b.Open ∧ (i = D.body.block ∨ i ∈ D.pending)
  targets : ∀ i ∈ D.body.func.code, ∀ l ∈ i.targets, l ∈ D.body.func.blocks.map BasicBlock.label

variable {Γ : Signatures} {sig : Signature} {B : Body} {P : List Nat} {E : List (Scopes Value)}
  {D D' : Draft}

namespace Formed

theorem current (h : Formed ⟨B, P, E⟩) {b : BasicBlock} (hb : B.func.blocks[B.block]? = some b) :
    (B.closed = false → b.Open) ∧ (B.closed = true → b.Ended) := by
  have hclosed : B.closed = b.isTerminated := by simp [Body.closed, hb]
  rw [hclosed]
  rcases h.blocks _ b hb with hended | ⟨hopen, -⟩
  · simp [hended, hended.isTerminated]
  · simp [hopen, hopen.isTerminated]

/-- Code in the current block, whether it stays open or is ended. -/
theorem write (h : Formed ⟨B, P, E⟩) {is : List Instr}
    (hnew : ∀ b, B.func.blocks[B.block]? = some b →
      (BasicBlock.mk b.label (b.code ++ is)).Ended ∨ (BasicBlock.mk b.label (b.code ++ is)).Open)
    (htargets : ∀ i ∈ is, ∀ l ∈ i.targets, l ∈ B.func.blocks.map BasicBlock.label) (n : Nat)
    (ts : List Value)
    (ds : List (String × Signature)) : Formed ⟨B.write is n ts ds, P, E⟩ where
  planned := by simpa [Planned, Body.write, Func.write] using h.planned
  block := by simpa [Body.write, Func.write] using h.block
  first := by
    have hlabels := congrArg List.head? (Func.labels_write B.func B.block n is)
    rw [List.head?_map, List.head?_map] at hlabels
    exact hlabels.trans h.first
  labels := by
    show ((B.func.write B.block is n).blocks.map BasicBlock.label).Nodup
    rw [Func.labels_write]
    exact h.labels
  nodup := h.nodup
  pending i hi := by
    obtain ⟨l, hl⟩ := h.pending i hi
    have hne : B.block ≠ i := fun he => (List.nodup_cons.1 h.nodup).1 (he ▸ hi)
    exact ⟨l, by simpa [Body.write, Func.write, List.getElem?_modify, hne] using hl⟩
  blocks i b hb := by
    simp only [Body.write, Func.write, List.getElem?_modify] at hb
    obtain ⟨c, hc, rfl⟩ := Option.map_eq_some_iff.1 hb
    by_cases hi : B.block = i
    · subst hi
      rw [if_pos rfl]
      exact (hnew c hc).imp_right fun hopen => ⟨hopen, .inl rfl⟩
    · rw [if_neg hi]
      exact h.blocks i c hc
  targets i hi l hl := by
    show l ∈ (B.func.write B.block is n).blocks.map BasicBlock.label
    rw [Func.labels_write]
    rcases Site.mem_code_write hi with hi | hi
    · exact h.targets i hi l hl
    · exact htargets i hi l hl

theorem addBlock (h : Formed ⟨B, P, E⟩) (hint : String) (sc : Scopes Value) :
    Formed ⟨B.addBlock hint, B.func.blocks.length :: P, E ++ [sc]⟩ where
  planned := by simpa [Planned, Body.addBlock, Func.addBlock] using h.planned
  block := by simpa [Body.addBlock, Func.addBlock] using Nat.lt_succ_of_lt h.block
  first := by
    have hne : B.func.blocks ≠ [] := List.ne_nil_of_length_pos (Nat.zero_lt_of_lt h.block)
    simpa [Body.addBlock, Func.addBlock, List.head?_append_of_ne_nil _ hne] using h.first
  labels := by
    have hfresh := freshLabel_not_mem (B.func.blocks.map BasicBlock.label) hint
    simp only [Body.addBlock, Func.addBlock, List.map_append, List.map_cons, List.map_nil]
    exact List.nodup_append.2 ⟨h.labels, List.nodup_singleton _, fun l hl l' hl' he =>
      hfresh (List.mem_singleton.1 hl' ▸ he ▸ hl)⟩
  nodup := by
    have hlt : ∀ i ∈ B.block :: P, i < B.func.blocks.length :=
      List.forall_mem_cons.2 ⟨h.block, fun i hi => by
      obtain ⟨l, hl⟩ := h.pending i hi
      exact (List.getElem?_eq_some_iff.1 hl).1⟩
    have hnew : B.func.blocks.length ∉ B.block :: P := fun hm => Nat.lt_irrefl _ (hlt _ hm)
    exact (List.Perm.swap B.block B.func.blocks.length P).nodup (List.nodup_cons.2 ⟨hnew, h.nodup⟩)
  pending := by
    refine List.forall_mem_cons.2 ⟨⟨freshLabel (B.func.blocks.map BasicBlock.label) hint, ?_⟩,
      fun i hi => ?_⟩
    · simp [Body.addBlock, Func.addBlock]
    · obtain ⟨l, hl⟩ := h.pending i hi
      refine ⟨l, ?_⟩
      simpa [Body.addBlock, Func.addBlock,
        List.getElem?_append_left (List.getElem?_eq_some_iff.1 hl).1] using hl
  blocks i b hb := by
    simp only [Body.addBlock, Func.addBlock] at hb
    by_cases hi : i < B.func.blocks.length
    · rw [List.getElem?_append_left hi] at hb
      exact (h.blocks i b hb).imp_right fun hat => ⟨hat.1, hat.2.imp_right (List.mem_cons_of_mem _)⟩
    · rw [List.getElem?_append_right (by omega), List.getElem?_singleton] at hb
      split at hb
      · obtain rfl := Option.some.inj hb
        have hi : i = B.func.blocks.length := by omega
        exact .inr ⟨by simp [BasicBlock.Open], .inr (hi ▸ List.mem_cons_self)⟩
      · cases hb
  targets i hi l hl := by
    have hi : i ∈ B.func.code := by simpa [Body.addBlock, Func.addBlock, Func.code] using hi
    simpa [Body.addBlock, Func.addBlock] using .inl (List.mem_map.1 (h.targets i hi l hl))

theorem perm {Q : List Nat} (h : Formed ⟨B, P, E⟩) (hPQ : P.Perm Q) : Formed ⟨B, Q, E⟩ where
  planned := h.planned
  block := h.block
  first := h.first
  labels := h.labels
  nodup := (hPQ.cons _).nodup h.nodup
  pending i hi := h.pending i (hPQ.mem_iff.2 hi)
  blocks i b hb := (h.blocks i b hb).imp_right fun hat => ⟨hat.1, hat.2.imp_right hPQ.mem_iff.1⟩
  targets := h.targets

theorem rescope (h : Formed ⟨B, P, E⟩) (sc : Scopes Value) : Formed ⟨B.rescope sc, P, E⟩ :=
  ⟨h.planned, h.block, h.first, h.labels, h.nodup, h.pending, h.blocks, h.targets⟩

end Formed

theorem Step.formed (h : Step Γ sig D D') (hD : D.Formed) : D'.Formed := by
  cases h with
  | write ds hopen hcode =>
    refine Formed.rescope (hD.write (fun b hb => .inr ?_) (fun i hi => ?_) _ _ _) _
    · exact ((hD.current hb).1 hopen).append hcode.open
    · simp [Instr.targets_of_isTerminator (hcode.open i hi)]
  | close ds hopen hcode =>
    exact hD.write (fun b hb => .inl (((hD.current hb).1 hopen).ended hcode.open.1 hcode.open.2))
      (hcode.targets hD.planned) _ _ _
  | note text hclosed =>
    exact hD.write (fun b hb => .inl (((hD.current hb).2 hclosed).comment text))
      (by simp [Instr.targets]) _ _ _
  | leave sc => exact hD.rescope sc
  | @fork B P E first second third =>
    have h₃ := ((hD.addBlock first B.scopes).addBlock second B.scopes).addBlock third B.scopes
    have hlen : ∀ (C : Body) hint,
        (C.addBlock hint).func.blocks.length = C.func.blocks.length + 1 := fun C hint => by
      simp [Body.addBlock, Func.addBlock]
    simp only [hlen, List.append_assoc] at h₃
    -- the blocks were added one after the other, and the first is the next to be written
    refine h₃.perm ?_
    exact ((List.Perm.swap _ _ _).cons _).trans ((List.Perm.swap
      _ _ _).trans ((List.Perm.swap _ _ _).cons _))
  | @move B i P E hclosed hentry =>
    obtain ⟨hnew, hnodup⟩ := List.nodup_cons.1 hD.nodup
    obtain ⟨l, hl⟩ := hD.pending i List.mem_cons_self
    refine ⟨hD.planned, (List.getElem?_eq_some_iff.1 hl).1, hD.first, hD.labels, hnodup,
      fun j hj => hD.pending j (List.mem_cons_of_mem i hj), fun j b hb => ?_, hD.targets⟩
    rcases hD.blocks j b hb with hended | ⟨hopen, rfl | hj⟩
    · exact .inl hended
    · exact .inl ((hD.current hb).2 hclosed)
    · exact .inr ⟨hopen, List.mem_cons.1 hj⟩

theorem Path.formed (h : Path Γ sig D D') (hD : D.Formed) : D'.Formed := by
  induction h with
  | refl => exact hD
  | tail _ hstep ih => exact hstep.formed ih

theorem formed_entry {F : Func} (hF : F.blocks = []) : Formed ⟨.entry F, [], [[]]⟩ where
  planned := by simp [Planned, Body.entry, Func.addBlock, hF]
  block := by simp [Body.entry, Func.addBlock]
  first := by simp [Body.entry, Func.addBlock, hF, freshLabel_of_not_mem]
  labels := by simp [Body.entry, Func.addBlock, hF]
  nodup := by simp
  pending := by simp
  blocks i b hb := by
    simp only [Body.entry, Func.addBlock, hF, List.nil_append, List.getElem?_singleton] at hb
    split at hb
    · rename_i hi
      obtain rfl := Option.some.inj hb
      exact .inr ⟨by simp [BasicBlock.Open], .inl (by simp [Body.entry, hF, hi])⟩
    · cases hb
  targets := by simp [Body.entry, Func.addBlock, Func.code, hF]

end Draft

/-- Control flow as it should be: it begins in the first block, each block has one end, and each
branch leads to the one block of its label. -/
structure Func.WellFormed (F : Func) : Prop where
  first : F.blocks.head?.map BasicBlock.label = some "entry"
  labels : (F.blocks.map BasicBlock.label).Nodup
  ended : ∀ b ∈ F.blocks, b.Ended
  targets : ∀ i ∈ F.code, ∀ l ∈ i.targets, ∃ b ∈ F.blocks, b.label = l ∧ F.block? l = some b

/-- Where labels are distinct, each leads to its own block. -/
theorem Func.block?_label {F : Func} (h : (F.blocks.map BasicBlock.label).Nodup) {b : BasicBlock}
    (hb : b ∈ F.blocks) :
    F.block? b.label = some b := by
  rw [block?, List.find?_eq_some_iff_append]
  obtain ⟨pre, post, hsplit⟩ := List.append_of_mem hb
  refine ⟨by simp, pre, post, hsplit, fun c hc => ?_⟩
  rw [hsplit, List.map_append, List.map_cons, List.nodup_append] at h
  simpa using h.2.2 c.label (List.mem_map_of_mem hc) b.label List.mem_cons_self

theorem Func.Drafted.wellFormed {Γ : Signatures} {F : Func} (h : F.Drafted Γ) : F.WellFormed := by
  obtain ⟨F₀, B, E, hblocks, -, hpath, hclosed, rfl⟩ := h
  have hB := Draft.Path.formed hpath (Draft.formed_entry hblocks)
  refine ⟨hB.first, hB.labels, fun b hb => ?_, fun i hi l hl => ?_⟩
  · obtain ⟨i, hi⟩ := List.getElem?_of_mem hb
    rcases hB.blocks i b hi with hended | ⟨-, rfl | hpending⟩
    · exact hended
    · exact (hB.current hi).2 hclosed
    · cases hpending
  · obtain ⟨b, hb, rfl⟩ := List.mem_map.1 (hB.targets i hi l hl)
    exact ⟨b, hb, rfl, Func.block?_label hB.labels hb⟩

end ImpFront
