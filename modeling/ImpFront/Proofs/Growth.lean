import Mathlib
import ImpFront.Proofs.Body

/-! How a function grows while its body is lowered. Code is only ever appended, and labels stay what
they are: so a block that was created with a fresh label is the one its label leads to, also in the
finished function `G`. What `G` holds beyond an unfinished `F` is the code that is still to come. -/

namespace ImpFront

namespace Func

/-- Every block of `F` is begun in `G`. -/
def Begins (F G : Func) : Prop :=
  ∀ (i : Nat) (B : BasicBlock), F.blocks[i]? = some B → ∃ is,
    G.blocks[i]? = some ⟨B.label, B.code ++ is⟩

/-- `F'` is `F` with more code in block `b` and more blocks behind. -/
structure Grows (b : Nat) (F F' : Func) : Prop where
  name : F'.name = F.name
  signature : F'.signature = F.signature
  length : F.blocks.length ≤ F'.blocks.length
  others : ∀ i, i < F.blocks.length → i ≠ b → F'.blocks[i]? = F.blocks[i]?
  block : ∀ B, F.blocks[b]? = some B → ∃ is, F'.blocks[b]? = some ⟨B.label, B.code ++ is⟩

/-- What `G` holds of a block beyond `F`. -/
def left (G F : Func) (b : Nat) : List Instr := (G.codeAt b).drop (F.codeAt b).length

theorem Begins.refl (F : Func) : F.Begins F := fun _ B h => ⟨[], by simpa using h⟩

theorem Begins.trans {F G H : Func} (h : F.Begins G) (h' : G.Begins H) : F.Begins H := by
  intro i B hB
  obtain ⟨is, his⟩ := h i B hB
  obtain ⟨js, hjs⟩ := h' i _ his
  exact ⟨is ++ js, by simpa using hjs⟩

theorem Grows.begins {b : Nat} {F F' : Func} (h : Grows b F F') : F.Begins F' := by
  intro i B hB
  by_cases hi : i = b
  · subst hi
    exact h.block B hB
  · have hlt : i < F.blocks.length := (List.getElem?_eq_some_iff.1 hB).1
    exact ⟨[], by simpa [hB] using h.others i hlt hi⟩

theorem Grows.refl (b : Nat) (F : Func) : Grows b F F :=
  ⟨rfl, rfl, le_rfl, fun _ _ _ => rfl, fun B hB => ⟨[], by simpa using hB⟩⟩

/-- Growth goes on in the same block or in one that is new. -/
theorem Grows.trans {b b' : Nat} {F F' F'' : Func} (h : Grows b F F') (h' : Grows b' F' F'')
    (hb : b' = b ∨ F.blocks.length ≤ b') : Grows b F F'' where
  name := h'.name.trans h.name
  signature := h'.signature.trans h.signature
  length := h.length.trans h'.length
  others i hi hne := by
    rw [h'.others i (lt_of_lt_of_le hi h.length) (by omega), h.others i hi hne]
  block B hB := (h.begins.trans h'.begins) b B hB

theorem grows_write (b : Nat) (is : List Instr) (n : Nat) (F : Func) :
    Grows b F (F.write b is n) where
  name := rfl
  signature := rfl
  length := by simp [write]
  others i _ hne := by simp [write, Ne.symm hne]
  block B hB := ⟨is, by simp [write, hB]⟩

theorem grows_addBlock (b : Nat) (hint : String) (F : Func) : Grows b F (F.addBlock hint) where
  name := rfl
  signature := rfl
  length := by simp [addBlock]
  others i hi _ := by simp [addBlock, List.getElem?_append_left hi]
  block B hB := by
    have hlt : b < F.blocks.length := (List.getElem?_eq_some_iff.1 hB).1
    exact ⟨[], by simp only [addBlock, List.getElem?_append_left hlt, hB, List.append_nil]⟩

theorem codeAt_of_begins {F G : Func} (h : F.Begins G) {b : Nat} (hb : b < F.blocks.length) :
    G.codeAt b = F.codeAt b ++ G.left F b := by
  obtain ⟨is, his⟩ := h b _ (List.getElem?_eq_getElem hb)
  simp [left, codeAt, his, List.getElem?_eq_getElem hb]

theorem codeAt_write {F : Func} {b : Nat} (hb : b < F.blocks.length) (is : List Instr) (n : Nat) :
    (F.write b is n).codeAt b = F.codeAt b ++ is := by
  simp [codeAt, write, List.getElem?_eq_getElem hb]

theorem labelAt_write (F : Func) (b i n : Nat) (is : List Instr) :
    (F.write b is n).labelAt i = F.labelAt i := by
  simp only [labelAt, write, List.getElem?_modify]
  cases F.blocks[i]? with
  | none => rfl
  | some C => by_cases h : b = i <;> simp [h]

/-- Code that was just written is the first of what was still to come. -/
theorem left_write {F G : Func} {b n : Nat} {is : List Instr} (hb : b < F.blocks.length)
    (h : (F.write b is n).Begins G) : G.left F b = is ++ G.left (F.write b is n) b := by
  have h₁ := codeAt_of_begins ((grows_write b is n F).begins.trans h) hb
  have h₂ := codeAt_of_begins h (show b < (F.write b is n).blocks.length by simpa [write] using hb)
  rw [codeAt_write hb, List.append_assoc] at h₂
  exact List.append_cancel_left (h₁.symm.trans h₂)

theorem left_eq_codeAt {F G : Func} {b : Nat} (h : F.codeAt b = []) : G.left F b = G.codeAt b := by
  simp [left, h]

theorem left_congr {F F' G : Func} {b : Nat} (h : F'.blocks[b]? = F.blocks[b]?) :
    G.left F' b = G.left F b := by
  simp [left, codeAt, h]

theorem labelAt_of_begins {F G : Func} (h : F.Begins G) {i : Nat} (hi : i < F.blocks.length) :
    G.labelAt i = F.labelAt i := by
  obtain ⟨is, his⟩ := h i _ (List.getElem?_eq_getElem hi)
  simp [labelAt, his, List.getElem?_eq_getElem hi]

/-- An empty block to which its label leads. -/
def Awaits (F : Func) (i : Nat) : Prop :=
  ∃ l, F.blocks[i]? = some ⟨l, []⟩ ∧ ∀ j, ∀ B : BasicBlock,
    j < i → F.blocks[j]? = some B → B.label ≠ l

theorem Awaits.lt {F : Func} {i : Nat} (h : F.Awaits i) : i < F.blocks.length := by
  obtain ⟨l, hl, -⟩ := h
  exact (List.getElem?_eq_some_iff.1 hl).1

theorem awaits_addBlock (F : Func) (hint : String) : (F.addBlock hint).Awaits F.blocks.length := by
  refine ⟨freshLabel (F.blocks.map BasicBlock.label) hint, by simp [addBlock],
    fun j B hj hB he => ?_⟩
  rw [addBlock, List.getElem?_append_left hj] at hB
  have hm : B.label ∈ F.blocks.map BasicBlock.label := List.mem_map_of_mem (List.mem_of_getElem? hB)
  rw [he] at hm
  exact freshLabel_not_mem _ hint hm

theorem Awaits.grows {F F' : Func} {b i : Nat} (h : F.Awaits i) (hF : Grows b F F') (hi : i ≠ b) :
    F'.Awaits i := by
  have hlt := h.lt
  obtain ⟨l, hl, hother⟩ := h
  refine ⟨l, by rw [hF.others i hlt hi, hl], fun j B hj hB => ?_⟩
  obtain ⟨is, his⟩ := hF.begins j _ (List.getElem?_eq_getElem (hj.trans hlt))
  rw [hB, Option.some.injEq] at his
  have hne := hother j _ hj (List.getElem?_eq_getElem (hj.trans hlt))
  rwa [his]

theorem Awaits.codeAt {F : Func} {i : Nat} (h : F.Awaits i) : F.codeAt i = [] := by
  obtain ⟨l, hl, -⟩ := h
  simp [Func.codeAt, hl]

/-- In a finished function the label leads to the block, and all its code is still to come. -/
theorem Awaits.block? {F G : Func} {i : Nat} (h : F.Awaits i) (hG : F.Begins G) :
    ∃ B, G.block? (G.labelAt i) = some B ∧ B.code = G.left F i := by
  have hcode := h.codeAt
  obtain ⟨l, hl, hother⟩ := h
  obtain ⟨is, his⟩ := hG i _ hl
  refine ⟨⟨l, is⟩, ?_, by rw [left_eq_codeAt hcode]; simp [Func.codeAt, his]⟩
  obtain ⟨hlt, hget⟩ := List.getElem?_eq_some_iff.1 his
  rw [Func.block?, List.find?_eq_some_iff_getElem]
  refine ⟨by simp [labelAt, his], i, hlt, hget, fun j hj => ?_⟩
  have hjF : j < F.blocks.length := hj.trans (List.getElem?_eq_some_iff.1 hl).1
  obtain ⟨js, hjs⟩ := hG j _ (List.getElem?_eq_getElem hjF)
  rw [(List.getElem?_eq_some_iff.1 hjs).2]
  simpa [labelAt, his] using hother j _ hj (List.getElem?_eq_getElem hjF)

end Func

theorem isTerminated_append_open {B : BasicBlock} {is : List Instr} (hB : B.isTerminated = false)
    (h : ∀ i ∈ is, i.isTerminator = false) :
    (BasicBlock.mk B.label (B.code ++ is)).isTerminated = false := by
  simp only [BasicBlock.isTerminated, List.filter_append, List.getLast?_append] at hB ⊢
  cases hlast : (is.filter fun i => !i.isComment).getLast? with
  | none => simpa [hlast] using hB
  | some i => simpa [hlast] using h i (List.mem_filter.1 (List.mem_of_getLast? hlast)).1

theorem isTerminated_append_closed (B : BasicBlock) (is : List Instr) {i : Instr}
    (h : i.isTerminator = true) :
    (BasicBlock.mk B.label (B.code ++ (is ++ [i]))).isTerminated = true := by
  have hc : i.isComment = false := by cases i <;> simp_all [Instr.isTerminator, Instr.isComment]
  simp [BasicBlock.isTerminated, hc, h]

theorem isTerminated_append_comment (B : BasicBlock) (text : String) :
    (BasicBlock.mk B.label (B.code ++ [.comment text])).isTerminated = B.isTerminated := by
  simp [BasicBlock.isTerminated, Instr.isComment]

namespace Body

variable {B : Body} (hb : B.block < B.func.blocks.length)

include hb

theorem closed_write (is : List Instr) (n : Nat) (ts : List Value)
    (ds : List (String × Signature)) :
    (B.write is n ts ds).closed =
      (BasicBlock.mk
        B.func.blocks[B.block].label (B.func.blocks[B.block].code ++ is)).isTerminated := by
  simp [closed, write, Func.write, List.getElem?_eq_getElem hb]

theorem closed_write_open {is : List Instr} (n : Nat) (ts : List Value)
    (ds : List (String × Signature)) (hB : B.closed = false)
    (h : ∀ i ∈ is, i.isTerminator = false) : (B.write is n ts ds).closed = false := by
  rw [closed_write hb]
  refine isTerminated_append_open ?_ h
  simpa [closed, List.getElem?_eq_getElem hb] using hB

theorem closed_write_terminator (is : List Instr) {i : Instr} (n : Nat) (ts : List Value)
    (ds : List (String × Signature)) (h : i.isTerminator = true) :
    (B.write (is ++ [i]) n ts ds).closed = true := by
  rw [closed_write hb]
  exact isTerminated_append_closed _ is h

theorem closed_write_comment (text : String) (n : Nat) (ts : List Value)
    (ds : List (String × Signature)) :
    (B.write [.comment text] n ts ds).closed = B.closed := by
  rw [closed_write hb, isTerminated_append_comment]
  simp [closed, List.getElem?_eq_getElem hb]

omit hb in
theorem closed_of_awaits (h : B.func.Awaits B.block) : B.closed = false := by
  obtain ⟨l, hl, -⟩ := h
  simp [closed, hl, BasicBlock.isTerminated]

end Body

end ImpFront
