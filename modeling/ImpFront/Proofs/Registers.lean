import Mathlib
import ImpFront.Proofs.CodeTyping
import ImpFront.Proofs.Heap

/-! Registers of compiled functions. Each block is checked from the registers that the scopes at its
entry name, and a branch is only taken where these are defined. On every walk a register is
therefore defined before it is used. -/

namespace ImpFront

/-- The registers that scopes name. -/
def Scopes.context (sc : Scopes Value) : Context :=
  sc.flatten.filterMap fun d => match d.2.storage with
    | .reg r => some (r, .pointer d.2.ty.prim)
    | _ => none

theorem Scopes.mem_context {sc : Scopes Value} {d : String × Local Value} (hd : d ∈ sc.flatten)
    {r : Reg} (hr : d.2.storage = .reg r) : (r, .pointer d.2.ty.prim) ∈ sc.context :=
  List.mem_filterMap.2 ⟨d, hd, by simp only [hr]⟩

/-- The registers of scopes are defined wherever the scopes are typed. -/
theorem Scopes.Typed.context_subset {params : List Ty} {c : Context} {sc : Scopes Value}
    (h : sc.Typed params c) :
    sc.context ⊆ c := by
  intro e he
  obtain ⟨d, hd, hmatch⟩ := List.mem_filterMap.1 he
  have htyped := h d hd
  cases hstorage : d.2.storage with
  | reg r =>
    rw [hstorage] at hmatch htyped
    exact Option.some.inj hmatch ▸ htyped
  | int | double | arg =>
    rw [hstorage] at hmatch
    cases hmatch

/-- Of all registers, typed scopes need only their own. -/
theorem Scopes.Typed.self {params : List Ty} {c : Context} {sc : Scopes Value}
    (h : sc.Typed params c) :
    sc.Typed params sc.context := by
  intro d hd
  have htyped := h d hd
  cases hstorage : d.2.storage with
  | reg r => exact Scopes.mem_context hd hstorage
  | int | double | arg =>
    rw [hstorage] at htyped
    exact htyped

section

variable {Γ : Signatures} {sig : Signature} {A : String → Context → Prop} {c : Context} {n n' : Nat}
  {is : List Instr}

theorem StraightCode.flows {sc sc' : Scopes Value} (h : StraightCode Γ sig sc n is sc' n')
    (hsc : sc.Typed sig.params c) :
    Flows Γ.find? sig A c n is n' (Scopes.Typed sig.params · sc') := by
  cases h with
  | comment => exact flows_comment _ hsc
  | params hps h =>
    refine h.flows (fun j p hp => ?_) hsc
    rw [Nat.zero_add, ← hps, List.getElem?_map, hp]
    rfl
  | declare h => exact h.flows hsc
  | assign h => exact h.flows hsc
  | enter => exact .nil hsc
  | leave frame sc =>
    exact flows_leaveCode hsc.handles fun d hd => hsc d (List.mem_append_right _ hd)

/-- A label leads to a block that is entered with the registers of a context. -/
def Func.Entered (F : Func) (E : List (Scopes Value)) (l : String) (c : Context) : Prop :=
  ∃ i sc, E[i]? = some sc ∧ F.labelAt i = l ∧ sc.context = c

theorem EndCode.flows {F : Func} {E : List (Scopes Value)} {sc : Scopes Value} {t : Instr}
    (h : EndCode Γ sig F E sc n is t n') (hsc : sc.Typed sig.params c) :
    Flows Γ.find? sig (F.Entered E) c n (is ++ [t]) n' fun _ => True := by
  cases h with
  | ret h => exact (h.flows hsc).bind fun c' _ hv => .silent rfl rfl hv trivial
  | fall frame sc =>
    refine (flows_freeCode (Q := fun _ => True) hsc.handles trivial).bind fun c' _ _ => ?_
    cases hret : sig.ret with
    | plain p =>
      refine .silent (i := .ret p.zeroValue) rfl rfl ?_ trivial
      rw [hret]
      exact Prim.has_zeroValue ..
    | pointer p => exact .silent (i := .unreachable) rfl rfl trivial trivial
  | @branch _ i _ hi =>
    refine ⟨c, .silent rfl trivial ?_ (.nil c n), trivial⟩
    exact List.forall_mem_singleton.2 ⟨_, ⟨i, sc, hi, rfl, rfl⟩, hsc.context_subset⟩
  | @test _ _ _ _ _ v i j h hi hj =>
    refine (h.flows hsc).bind fun c' _ hv => ⟨c', .silent rfl hv.1 ?_ (.nil c' _), trivial⟩
    exact List.forall_mem_cons.2 ⟨⟨_, ⟨i, sc, hi, rfl, rfl⟩, hv.2.context_subset⟩,
      List.forall_mem_singleton.2 ⟨_, ⟨j, sc, hj, rfl, rfl⟩, hv.2.context_subset⟩⟩

end

/-- An instruction of the function defines the register, with the type. -/
def Func.Assigns (known : String → Option Signature) (F : Func) (e : Reg × ValTy) : Prop :=
  ∃ i ∈ F.code, i.dst? = some e.1 ∧ i.resultTy? known = some e.2

theorem Func.code_write_perm {F : Func} {b : Nat} (hb : b < F.blocks.length) (is : List Instr)
    (n : Nat) :
    (F.write b is n).code.Perm (F.code ++ is) := by
  have hblocks : ∀ (bs : List BasicBlock) (b : Nat), b < bs.length →
      ((bs.modify b fun B => { B with code := B.code ++ is }).flatMap BasicBlock.code).Perm
        (bs.flatMap BasicBlock.code ++ is) := by
    intro bs
    induction bs with
    | nil => simp
    | cons B bs ih =>
      intro b hb
      cases b with
      | zero =>
        simp only [List.modify_zero_cons, List.flatMap_cons, List.append_assoc]
        exact List.Perm.append_left _ List.perm_append_comm
      | succ b =>
        simp only [List.modify_succ_cons, List.flatMap_cons, List.append_assoc]
        exact List.Perm.append_left _ (ih b (by simpa using hb))
  exact hblocks F.blocks b hb

theorem Func.getElem?_write_self {F : Func} {b : Nat} {C : BasicBlock} (hC : F.blocks[b]? = some C)
    (is : List Instr) (n : Nat) : (F.write b is n).blocks[b]? = some ⟨C.label, C.code ++ is⟩ := by
  simp [write, hC]

theorem Body.fork_getElem?_of_lt (B : Body) (first second third : String) {i : Nat}
    (hi : i < B.func.blocks.length) :
    (B.fork first second third).func.blocks[i]? = B.func.blocks[i]? := by
  simp only [fork, addBlock, Func.addBlock, List.append_assoc]
  rw [List.getElem?_append_left hi]

theorem Body.code_fork (B : Body) (first second third : String) :
    (B.fork first second third).func.code = B.func.code := by
  simp [fork, addBlock, Func.addBlock, Func.code]

namespace Draft

/-- The blocks are checked from their entries, and the registers in use are those that are
defined. -/
structure Checked (Γ : Signatures) (sig : Signature) (D : Draft) : Prop where
  formed : D.Formed
  first : D.entries.head? = some []
  dsts : (D.body.func.code.filterMap
    Instr.dst?).Perm ((List.range D.body.func.registers).map Handle.mk)
  entries : ∀ sc ∈ D.entries, sc.Typed sig.params sc.context ∧ ∀ e ∈ sc.context,
    D.body.func.Assigns Γ.find? e
  blocks : ∀ (i : Nat) (b : BasicBlock) (sc : Scopes Value),
    D.body.func.blocks[i]? = some b → D.entries[i]? = some sc →
    ∃ n c n', CodeTyped Γ.find? sig (D.body.func.Entered D.entries) sc.context n b.code c n'

/-- While the current block is open, its scopes are typed behind its code. -/
def Current (Γ : Signatures) (sig : Signature) (D : Draft) : Prop :=
  D.body.closed = false → ∀ (b : BasicBlock) (sc : Scopes Value),
    D.body.func.blocks[D.body.block]? = some b →
    D.entries[D.body.block]? = some sc →
      ∃ n, Flows Γ.find? sig (D.body.func.Entered D.entries) sc.context n b.code
        D.body.func.registers
        (Scopes.Typed sig.params · D.body.scopes)

variable {Γ : Signatures} {sig : Signature} {B : Body} {P : List Nat} {E : List (Scopes Value)}
  {D D' : Draft}

theorem entered_write (F : Func) (b n : Nat) (is : List Instr) (E : List (Scopes Value)) :
    (F.write b is n).Entered E = F.Entered E := by
  funext l c
  simp only [Func.Entered, Func.labelAt_write]

/-- Code in the current block: it flows on from what the block holds and numbers its registers in
order. -/
theorem Checked.write (h : Checked Γ sig ⟨B, P, E⟩) {is : List Instr} {n : Nat} {ts : List Value}
    {ds : List (String × Signature)} (hformed : Formed ⟨B.write is n ts ds, P, E⟩)
    (hblock : ∀ b sc, B.func.blocks[B.block]? = some b → E[B.block]? = some sc →
      ∃ m c n', CodeTyped Γ.find? sig (B.func.Entered E) sc.context m (b.code ++ is) c n')
    (hdsts : ∃ k, n = B.func.registers + k ∧
      is.filterMap Instr.dst? = (List.range' B.func.registers k).map Handle.mk) :
    Checked Γ sig ⟨B.write is n ts ds, P, E⟩ := by
  have hperm := Func.code_write_perm h.formed.block is n
  refine ⟨hformed, h.first, ?_, fun sc hsc => ⟨(h.entries sc hsc).1, fun e he => ?_⟩,
    fun i b sc hb hsc => ?_⟩
  · obtain ⟨k, rfl, his⟩ := hdsts
    -- registers are numbered as they are written, and blocks are not written in the order in which
    -- they stand
    refine (hperm.filterMap _).trans ?_
    rw [List.filterMap_append, his]
    refine (h.dsts.append_right _).trans (.of_eq ?_)
    rw [← List.map_append, List.range_eq_range', List.range_eq_range', Body.write_registers,
      ← List.range'_append_1, Nat.zero_add]
  · obtain ⟨i, hi, hdef⟩ := (h.entries sc hsc).2 e he
    exact ⟨i, hperm.mem_iff.2 (List.mem_append_left _ hi), hdef⟩
  · rw [show (B.write is n ts ds).func.Entered E = B.func.Entered E from entered_write ..]
    simp only [Body.write, Func.write, List.getElem?_modify] at hb
    obtain ⟨b', hb', rfl⟩ := Option.map_eq_some_iff.1 hb
    by_cases hi : B.block = i
    · subst hi
      rw [if_pos rfl]
      exact hblock b' sc hb' hsc
    · rw [if_neg hi]
      exact h.blocks i b' sc hb' hsc

/-- Code that flows on from an open block. -/
theorem Checked.flow (h : Checked Γ sig ⟨B, P, E⟩) (hcurrent : Current Γ sig ⟨B, P, E⟩)
    (hopen : B.closed = false) {is : List Instr} {n : Nat}
    {ts : List Value} {ds : List (String × Signature)} {Q : Context → Prop}
    (hformed : Formed ⟨B.write is n ts ds, P, E⟩) (hcode : ∀ c, B.scopes.Typed sig.params c →
      Flows Γ.find? sig (B.func.Entered E) c B.func.registers is n Q) :
    Checked Γ sig ⟨B.write is n ts ds, P, E⟩ ∧
      ∀ (b : BasicBlock) (sc : Scopes Value),
        (B.write is n ts ds).func.blocks[B.block]? = some b → E[B.block]? = some sc →
        ∃ m, Flows Γ.find? sig ((B.write is n ts ds).func.Entered E) sc.context m b.code n Q := by
  have hblock : ∀ (b : BasicBlock) (sc : Scopes Value),
      B.func.blocks[B.block]? = some b → E[B.block]? = some sc →
      ∃ m, Flows Γ.find? sig (B.func.Entered E) sc.context m (b.code ++ is) n Q :=
        fun b sc hb hsc => by
    obtain ⟨m, hflows⟩ := hcurrent hopen b sc hb hsc
    exact ⟨m, hflows.bind fun c _ hc => hcode c hc⟩
  obtain ⟨b, hb⟩ : ∃ b, B.func.blocks[B.block]? = some b :=
    ⟨_, List.getElem?_eq_getElem h.formed.block⟩
  obtain ⟨sc, hsc⟩ : ∃ sc, E[B.block]? = some sc :=
    ⟨_, List.getElem?_eq_getElem (h.formed.planned ▸ h.formed.block)⟩
  have hdsts : ∃ k, n = B.func.registers + k ∧
      is.filterMap Instr.dst? = (List.range' B.func.registers k).map Handle.mk := by
    obtain ⟨m, c, -, htyped⟩ := hcurrent hopen b sc hb hsc
    obtain ⟨c', hflow, -⟩ := hcode c htyped
    exact hflow.dsts
  refine ⟨h.write hformed (fun b sc hb hsc => ?_) hdsts, fun b' sc hb' hsc => ?_⟩
  · obtain ⟨m, c, hflow, -⟩ := hblock b sc hb hsc
    exact ⟨m, c, n, hflow⟩
  · rw [show (B.write is n ts ds).func.Entered E = B.func.Entered E from entered_write ..]
    obtain rfl := Option.some.inj ((Func.getElem?_write_self hb is n).symm.trans hb')
    exact hblock b sc hb hsc

/-- New blocks are entered with the registers of the scopes at the branch. -/
theorem Checked.fork (h : Checked Γ sig ⟨B, P, E⟩) (hcurrent : Current Γ sig ⟨B, P, E⟩)
    (hopen : B.closed = false) (first second third : String) {Q : List Nat}
    (hformed : Formed ⟨B.fork first second third, Q, E ++ [B.scopes, B.scopes, B.scopes]⟩) :
    Checked Γ sig ⟨B.fork first second third, Q, E ++ [B.scopes, B.scopes, B.scopes]⟩ ∧
      Current Γ sig ⟨B.fork first second third, Q, E ++ [B.scopes, B.scopes, B.scopes]⟩ := by
  have hlength : E.length = B.func.blocks.length := h.formed.planned
  have hentered : ∀ l c, B.func.Entered E l c →
      (B.fork first second third).func.Entered (E ++ [B.scopes, B.scopes, B.scopes]) l c := by
    rintro l c ⟨i, sc, hi, hl, hc⟩
    have hlt : i < B.func.blocks.length := hlength ▸ (List.getElem?_eq_some_iff.1 hi).1
    exact ⟨i, sc, entry_append hi,
      by rw [Func.labelAt, Body.fork_getElem?_of_lt _ _ _ _ hlt]; exact hl, hc⟩
  obtain ⟨b, hb⟩ : ∃ b, B.func.blocks[B.block]? = some b :=
    ⟨_, List.getElem?_eq_getElem h.formed.block⟩
  obtain ⟨sc, hsc⟩ : ∃ sc, E[B.block]? = some sc :=
    ⟨_, List.getElem?_eq_getElem (hlength ▸ h.formed.block)⟩
  obtain ⟨m, c, hflow, htyped⟩ := hcurrent hopen b sc hb hsc
  have hscopes : B.scopes.Typed sig.params B.scopes.context ∧ ∀ e ∈ B.scopes.context,
      B.func.Assigns Γ.find? e := by
    refine ⟨htyped.self, fun e he => ?_⟩
    rcases hflow.defined (htyped.context_subset he) with he | ⟨i, hi, hdef⟩
    · exact (h.entries sc (List.mem_of_getElem? hsc)).2 e he
    · exact ⟨i, List.mem_flatMap.2 ⟨b, List.mem_of_getElem? hb, hi⟩, hdef⟩
  refine ⟨⟨hformed, ?_, ?_, fun sc' hsc' => ?_, fun i b' sc' hb' hsc' => ?_⟩,
    fun _ b' sc' hb' hsc' => ?_⟩
  · have hne : E ≠ [] := fun he => by simp [he] at hsc
    rw [List.head?_append_of_ne_nil _ hne]
    exact h.first
  · rw [Body.code_fork]
    exact h.dsts
  · rw [show (B.fork first second third).func.Assigns Γ.find? = B.func.Assigns Γ.find? by
      funext e
      simp only [Func.Assigns, Body.code_fork]]
    rcases List.mem_append.1 hsc' with hold | hnew
    · exact h.entries sc' hold
    · have hsc' : sc' = B.scopes := by simpa using hnew
      exact hsc' ▸ hscopes
  · by_cases hi : i < B.func.blocks.length
    · rw [Body.fork_getElem?_of_lt _ _ _ _ hi] at hb'
      rw [List.getElem?_append_left (hlength ▸ hi)] at hsc'
      obtain ⟨n, c, n', hflow⟩ := h.blocks i b' sc' hb' hsc'
      exact ⟨n, c, n', hflow.mono hentered⟩
    · have hlt := (List.getElem?_eq_some_iff.1 hb').1
      rw [Body.fork_length] at hlt
      obtain ⟨l, hl, -⟩ :=
        B.awaits_fork first second third (show i - B.func.blocks.length < 3 by omega)
      rw [Nat.add_sub_cancel' (by omega)] at hl
      obtain rfl := Option.some.inj (hl.symm.trans hb')
      exact ⟨0, _, 0, .nil _ _⟩
  · obtain rfl :=
      Option.some.inj (hb.symm.trans ((Body.fork_getElem? _ _ _ h.formed.block).symm.trans hb'))
    obtain rfl := Option.some.inj ((entry_append hsc).symm.trans hsc')
    exact ⟨m, c, hflow.mono hentered, htyped⟩

theorem Step.checked (h : Step Γ sig D D') (hD : Checked Γ sig D ∧ Current Γ sig D) :
    Checked Γ sig D' ∧ Current Γ sig D' := by
  have hformed := h.formed hD.1.formed
  cases h with
  | @write B P E is sc n ds hopen hcode =>
    have hformed' : Formed ⟨B.write is n [] ds, P, E⟩ := hformed.rescope B.scopes
    obtain ⟨hchecked, hcurrent⟩ := hD.1.flow hD.2 hopen hformed' fun c hc => hcode.flows hc
    exact ⟨⟨hformed, hchecked.first, hchecked.dsts, hchecked.entries, hchecked.blocks⟩,
      fun _ => hcurrent⟩
  | @close B P E is t n ds hopen hcode =>
    refine ⟨(hD.1.flow hD.2 hopen hformed fun c hc => hcode.flows hc).1, fun hclosed => ?_⟩
    have := Body.closed_write_terminator hD.1.formed.block is n [] ds hcode.open.2
    simp [this] at hclosed
  | @note B P E text hclosed =>
    refine ⟨hD.1.write hformed (fun b sc hb hsc => ?_) ⟨0, rfl, rfl⟩, fun hopen => ?_⟩
    · obtain ⟨m, c, n', hflow⟩ := hD.1.blocks _ b sc hb hsc
      exact ⟨m, c, n', hflow.append (.silent rfl trivial (by simp [Instr.targets]) (.nil _ _))⟩
    · rw [Body.closed_write_comment hD.1.formed.block, hclosed] at hopen
      cases hopen
  | leave sc hclosed =>
    refine ⟨⟨hformed, hD.1.first, hD.1.dsts, hD.1.entries, hD.1.blocks⟩, fun hopen => ?_⟩
    cases hclosed.symm.trans hopen
  | @fork B P E first second third hopen => exact hD.1.fork hD.2 hopen first second third hformed
  | @move B i P E hclosed hentry =>
    refine ⟨⟨hformed, hD.1.first, hD.1.dsts, hD.1.entries, hD.1.blocks⟩, fun _ b sc hb hsc => ?_⟩
    obtain ⟨l, hl⟩ := hD.1.formed.pending i List.mem_cons_self
    obtain rfl := Option.some.inj (hl.symm.trans hb)
    obtain rfl := Option.some.inj (hentry.symm.trans hsc)
    exact ⟨_, .nil (hD.1.entries _ (List.mem_of_getElem? hentry)).1⟩

theorem Path.checked (h : Path Γ sig D D') (hD : Checked Γ sig D ∧ Current Γ sig D) :
    Checked Γ sig D' ∧ Current Γ sig D' := by
  induction h with
  | refl => exact hD
  | tail _ hstep ih => exact hstep.checked ih

theorem checked_entry {F : Func} (hblocks : F.blocks = []) (hregs : F.registers = 0) :
    Checked Γ sig ⟨.entry F, [], [[]]⟩ ∧ Current Γ sig ⟨.entry F, [], [[]]⟩ := by
  have hempty :
      ∀ (i : Nat) (b : BasicBlock), (Body.entry F).func.blocks[i]? = some b → b.code = [] := by
    intro i b hb
    simp only [Body.entry, Func.addBlock, hblocks, List.nil_append, List.getElem?_singleton] at hb
    split at hb
    · obtain rfl := Option.some.inj hb
      rfl
    · cases hb
  refine ⟨⟨formed_entry hblocks, rfl, ?_, ?_, fun i b sc hb _ => ?_⟩, fun _ b sc hb hsc => ?_⟩
  · simp [Body.entry, Func.addBlock, Func.code, hblocks, hregs]
  · simp [Scopes.Typed, Scopes.context]
  · rw [hempty i b hb]
    exact ⟨0, _, 0, .nil _ _⟩
  · rw [hempty _ b hb]
    exact ⟨_, .nil (by simp [Scopes.Typed, Body.entry])⟩

end Draft

/-- What checking leaves of a finished function: how each block is entered, and that its code flows
from there. -/
structure Func.Certified (Γ : Signatures) (F : Func) (E : List (Scopes Value)) : Prop where
  length : E.length = F.blocks.length
  first : E.head? = some []
  labels : (F.blocks.map BasicBlock.label).Nodup
  dsts : (F.code.filterMap Instr.dst?).Perm ((List.range F.registers).map Handle.mk)
  entries : ∀ sc ∈ E, ∀ e ∈ sc.context, F.Assigns Γ.find? e
  blocks :
    ∀ (i : Nat) (b : BasicBlock) (sc : Scopes Value), F.blocks[i]? = some b → E[i]? = some sc →
    ∃ n c n', CodeTyped Γ.find? F.signature (F.Entered E) sc.context n b.code c n'

theorem Func.Drafted.certified {Γ : Signatures} {F : Func} (h : F.Drafted Γ) :
    ∃ E, F.Certified Γ E := by
  obtain ⟨F₀, B, E, hblocks, hregs, hpath, -, rfl⟩ := h
  obtain ⟨hB, -⟩ := Draft.Path.checked hpath (Draft.checked_entry hblocks hregs)
  exact ⟨E, hB.formed.planned, hB.first, hB.formed.labels, hB.dsts,
    fun sc hsc => (hB.entries sc hsc).2, hB.blocks⟩

/-- A label leads to a block whose code flows from the context in which the label is entered. -/
theorem Func.Certified.entered {Γ : Signatures} {F : Func} {E : List (Scopes Value)}
    (h : F.Certified Γ E) {l : String} {c : Context} {b : BasicBlock} (hl : F.Entered E l c)
    (hb : F.block? l = some b) :
    ∃ n c' n', CodeTyped Γ.find? F.signature (F.Entered E) c n b.code c' n' := by
  obtain ⟨i, sc, hi, rfl, rfl⟩ := hl
  have hlt : i < F.blocks.length := h.length ▸ (List.getElem?_eq_some_iff.1 hi).1
  have hlabel := Func.block?_label h.labels (List.getElem_mem hlt)
  rw [labelAt, List.getElem?_eq_getElem hlt] at hb
  obtain rfl := Option.some.inj (hlabel.symm.trans hb)
  exact h.blocks i _ sc (List.getElem?_eq_getElem hlt) hi

/-- On a walk, what is left of the block flows from registers that the walk has defined. -/
theorem Func.Certified.walk {Γ : Signatures} {F : Func} {E : List (Scopes Value)}
    (h : F.Certified Γ E) {done todo : List Instr} (hwalk : F.Walk done todo) :
    ∃ c n c' n', CodeTyped Γ.find? F.signature (F.Entered E) c n todo c' n' ∧
      ∀ e ∈ c, ∃ j ∈ done, j.dst? = some e.1 := by
  induction hwalk with
  | @entry b hb =>
    have hE := h.first
    rw [List.head?_eq_getElem?] at hb hE
    obtain ⟨n, c', n', hflow⟩ := h.blocks 0 b [] hb hE
    exact ⟨_, n, c', n', hflow, by simp [Scopes.context]⟩
  | @next done todo todo' i _ hnext ih =>
    obtain ⟨c, n, c', n', hflow, hdef⟩ := ih
    have hdef' : ∀ e ∈ c, ∃ j ∈ done ++ [i], j.dst? = some e.1 := fun e he => by
      obtain ⟨j, hj, hdst⟩ := hdef e he
      exact ⟨j, List.mem_append_left _ hj, hdst⟩
    -- a branch starts over from the context of its target, which is part of this one
    have hbranch : ∀ {l : String} {b : BasicBlock},
        (∀ l ∈ i.targets, ∃ d, F.Entered E l d ∧ d ⊆ c) → l ∈ i.targets →
        F.block? l = some b → ∃ c n c' n',
          CodeTyped Γ.find? F.signature (F.Entered E) c n b.code c' n' ∧
          ∀ e ∈ c, ∃ j ∈ done ++ [i], j.dst? = some e.1 := fun htargets hl hb => by
      obtain ⟨d, hd, hdc⟩ := htargets _ hl
      obtain ⟨n, c', n', hflow⟩ := h.entered hd hb
      exact ⟨d, n, c', n', hflow, fun e he => hdef' e (hdc he)⟩
    cases hflow with
    | silent hdst htakes htargets hflow =>
      cases hnext with
      | step => exact ⟨c, n, c', n', hflow, hdef'⟩
      | branch hb => exact hbranch htargets (by simp [Instr.targets]) hb
      | yes hb => exact hbranch htargets (by simp [Instr.targets]) hb
      | no hb => exact hbranch htargets (by simp [Instr.targets]) hb
    | define hdst hty htakes hflow =>
      cases hnext with
      | step =>
        refine ⟨_, _, c', n', hflow, List.forall_mem_cons.2 ⟨⟨i, by simp, hdst⟩, hdef'⟩⟩
      | branch | yes | no => cases hdst

/-- An instruction of code that flows takes its operands from before the code, or from what the code
defines. -/
theorem CodeTyped.mem {known : String → Option Signature} {sig : Signature}
    {A : String → Context → Prop} {c c' : Context} {n n' : Nat} {is : List Instr} {i : Instr}
    (h : CodeTyped known sig A c n is c' n') (hi : i ∈ is) :
    (∃ d, i.Takes known sig.ret (Context.Has sig.params d) ∧
      ∀ e ∈ d, e ∈ c ∨ ∃ j ∈ is, j.dst? = some e.1 ∧ j.resultTy? known = some e.2) ∧
    ∀ r, i.dst? = some r → ∃ t, i.resultTy? known = some t := by
  induction h with
  | nil => cases hi
  | silent hdst htakes _ _ ih =>
    rcases List.mem_cons.1 hi with rfl | hi
    · exact ⟨⟨_, htakes, fun e he => .inl he⟩, fun r hr => by cases hdst.symm.trans hr⟩
    · obtain ⟨⟨d, htakes, hd⟩, hty⟩ := ih hi
      refine ⟨⟨d, htakes, fun e he => ?_⟩, hty⟩
      rcases hd e he with he | ⟨j, hj, h⟩
      · exact .inl he
      · exact .inr ⟨j, List.mem_cons_of_mem _ hj, h⟩
  | define hdst hty htakes _ ih =>
    rcases List.mem_cons.1 hi with rfl | hi
    · exact ⟨⟨_, htakes, fun e he => .inl he⟩, fun _ _ => ⟨_, hty⟩⟩
    · obtain ⟨⟨d, htakes, hd⟩, hty'⟩ := ih hi
      refine ⟨⟨d, htakes, fun e he => ?_⟩, hty'⟩
      rcases hd e he with he | ⟨j, hj, h⟩
      · rcases List.mem_cons.1 he with rfl | he
        · exact .inr ⟨_, List.mem_cons_self, hdst, hty⟩
        · exact .inl he
      · exact .inr ⟨j, List.mem_cons_of_mem _ hj, h⟩

/-- Every instruction takes its operands from registers that the function assigns. -/
theorem Func.Certified.takes {Γ : Signatures} {F : Func} {E : List (Scopes Value)}
    (h : F.Certified Γ E) {i : Instr} (hi : i ∈ F.code) :
    (∃ d, i.Takes Γ.find? F.signature.ret (Context.Has F.signature.params d) ∧ ∀ e ∈ d,
      F.Assigns Γ.find? e) ∧
      ∀ r, i.dst? = some r → ∃ t, i.resultTy? Γ.find? = some t := by
  obtain ⟨b, hb, hib⟩ := List.mem_flatMap.1 hi
  obtain ⟨k, hk⟩ := List.getElem?_of_mem hb
  have hlt : k < E.length := h.length ▸ (List.getElem?_eq_some_iff.1 hk).1
  have hsc := List.getElem?_eq_getElem hlt
  obtain ⟨n, c, n', hflow⟩ := h.blocks k b _ hk hsc
  obtain ⟨⟨d, htakes, hd⟩, hty⟩ := hflow.mem hib
  refine ⟨⟨d, htakes, fun e he => ?_⟩, hty⟩
  rcases hd e he with he | ⟨j, hj, hdef⟩
  · exact h.entries _ (List.getElem_mem hlt) e he
  · exact ⟨j, List.mem_flatMap.2 ⟨b, hb, hj⟩, hdef⟩

/-- Single-assignment form: the registers are numbered from zero and defined by one instruction
each, and wherever control has got to, the operands of an instruction are there: its registers were
defined on the way, its parameters exist. -/
structure Func.SingleAssignment (F : Func) : Prop where
  dsts : (F.code.filterMap Instr.dst?).Perm ((List.range F.registers).map Handle.mk)
  defined : ∀ done i todo, F.Walk done (i :: todo) → ∀ r, .reg r ∈ i.operands → ∃ j ∈ done,
    j.dst? = some r
  params : ∀ i ∈ F.code, ∀ k, .arg k ∈ i.operands → k < F.signature.params.length

theorem Func.Certified.singleAssignment {Γ : Signatures} {F : Func} {E : List (Scopes Value)}
    (h : F.Certified Γ E) :
    F.SingleAssignment where
  dsts := h.dsts
  defined done i todo hwalk r hr := by
    obtain ⟨c, n, c', n', hflow, hdef⟩ := h.walk hwalk
    have htakes : i.Takes Γ.find? F.signature.ret (Context.Has F.signature.params c) := by
      cases hflow with
      | silent _ htakes => exact htakes
      | define _ _ htakes => exact htakes
    obtain ⟨t, ht⟩ := htakes.operand _ hr
    exact hdef _ ht
  params i hi k hk := by
    obtain ⟨⟨d, htakes, -⟩, -⟩ := h.takes hi
    obtain ⟨t, j, ty, hj, hparam, -⟩ := htakes.operand _ hk
    have hk : j % Recorder.paramLimit = k := Value.arg.inj hparam
    exact hk ▸ lt_of_le_of_lt (Nat.mod_le _ _) (List.getElem?_eq_some_iff.1 hj).1

/-- Each function body of a compiled module is in single-assignment form. -/
theorem compile_singleAssignment (source : String) {F : Func}
    (hF : F ∈ (compile source Recorder.empty).2.toModule.functions) (hbody : F.blocks ≠ []) :
    F.SingleAssignment := by
  obtain ⟨Γ, hdrafted, -⟩ := compile_drafted source hF hbody
  obtain ⟨E, hcertified⟩ := hdrafted.certified
  exact hcertified.singleAssignment

/-- Slots from before a loop are used in an arm of a branch inside it. -/
theorem compile_singleAssignment_loop :
    let m := (compile ("int f(int n) \x7b int i; while (i < n) \x7b int j; j = i + 1; " ++
      "if (j < 5) \x7b i = j; \x7d else \x7b return j; \x7d \x7d return i; \x7d")
        Recorder.empty).2.toModule
    ∃ F ∈ m.functions, F.blocks.length = 7 ∧ F.registers = 13 ∧ F.SingleAssignment := by
  intro m
  have hmem : ∃ F ∈ m.functions, F.blocks.length = 7 ∧ F.registers = 13 := by decide +kernel
  obtain ⟨F, hF, hlen, hregs⟩ := hmem
  exact ⟨F, hF, hlen, hregs, compile_singleAssignment _ hF (List.ne_nil_of_length_pos (by omega))⟩

end ImpFront
