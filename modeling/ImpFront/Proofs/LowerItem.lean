import Mathlib
import ImpFront.Proofs.LowerFlow

/-! Lowering a definition. Its code begins in a new block of its function, binds the parameters,
goes through the statements and ends in the way the type of the function allows. -/

namespace ImpFront

open Lower

variable {S : Site} {B B' : Body}

theorem ParamsCode.open {i n n' : Nat} {sc sc' : Scopes Value} {ps : List Param} {is : List Instr}
    (h : ParamsCode i sc ps n is sc' n') : ∀ i ∈ is, i.isTerminator = false ∧ i.callee? = none := by
  induction h with
  | nil => simp
  | plain _ _ ih =>
    simp only [List.forall_mem_cons]
    exact ⟨⟨rfl, rfl⟩, ⟨rfl, rfl⟩, ih⟩
  | pointer _ _ ih => exact ih

theorem ParamsCode.frames {i n n' : Nat} {sc sc' : Scopes Value} {ps : List Param} {is : List Instr}
    (h : ParamsCode i sc ps n is sc' n') :
    ∀ {f : Frame Value} {fs : Scopes Value}, sc = f :: fs → ∃ f', sc' = f' :: fs := by
  induction h with
  | nil => exact fun h => ⟨_, h⟩
  | plain _ _ ih | pointer _ _ ih =>
    rintro f fs ⟨⟩
    exact ih rfl

theorem Site.emit_functionParam (S : Site) (B : Body) (f : FunctionId) (i : Nat) :
    emit (.functionParam f i) (S.state B) = .ok (paramValue i) (S.state B) := rfl

theorem bindParams_code {f : FunctionId} :
    ∀ {ps : List Param} {i : Nat} {B : Body} {s' : Lowering Recorder},
    bindParams f i ps (S.state B) = .ok () s' →
    ∃ is n sc, ParamsCode i B.scopes ps B.func.registers is sc n ∧
    s' = S.state ((B.write is n [] []).rescope sc)
  | [], i, B, s', h => by
    cases h
    exact ⟨_, _, _, .nil _ _ _, by rw [Body.write_nil, Body.rescope_self]⟩
  | ⟨pos, x, ty⟩ :: ps, i, B, s', h => by
    simp only [bindParams] at h
    rw [bind_of_ok (S.emit_functionParam B f i)] at h
    cases ty with
    | plain p =>
      simp only at h
      rw [bind_of_ok (S.emit_stackAlloc B p x), bind_of_ok (S.emit_store _ _ _),
        bind_of_ok (pure_apply _ _)] at h
      obtain ⟨_, s₁, hd, h⟩ := bind_eq_ok.1 h
      obtain ⟨frame, sc, hsc, hx, rfl⟩ := declare_state hd
      obtain ⟨is, n, sc', hcode, rfl⟩ := bindParams_code h
      refine ⟨.stackAlloc ⟨B.func.registers⟩ p x ::
        .store (paramValue i) (.reg ⟨B.func.registers⟩) :: is, n, sc', ?_, ?_⟩
      · rw [show B.scopes = frame :: sc from hsc]
        exact .plain hx hcode
      · simp
    | pointer p =>
      simp only at h
      rw [bind_of_ok (pure_apply _ _)] at h
      obtain ⟨_, s₁, hd, h⟩ := bind_eq_ok.1 h
      obtain ⟨frame, sc, hsc, hx, rfl⟩ := declare_state hd
      obtain ⟨is, n, sc', hcode, rfl⟩ := bindParams_code h
      refine ⟨_, _, _, ?_, rfl⟩
      rw [hsc]
      exact .pointer hx hcode

theorem fallOff_state {frame : Frame Value} {sc : Scopes Value} {ret : Ty} (S : Site)
    (hsc : B.scopes = frame :: sc) :
    fallOff ret (S.state B) = .ok () (S.state (if B.closed then B
      else (B.write (freeCode frame.handles ++ [ret.fallInstr]) B.func.registers []
        []).rescope sc)) := by
  refine (bind_of_ok (S.emit_isTerminated B)).trans ?_
  cases B.closed
  · have hpop : popScope (S.state B) = .ok frame (S.state (B.rescope sc)) := by
      have hs : (S.state B).scopes = frame :: sc := hsc
      simp only [popScope, hs]
      rfl
    refine (bind_of_ok hpop).trans ((bind_of_ok (release_state S _ _)).trans ?_)
    cases ret with
    | pointer p =>
      refine (S.emit_unreachable _).trans ?_
      simp [Ty.fallInstr]
    | plain p =>
      refine (bind_of_ok (S.zero_code _ p)).trans ((S.emit_ret _ _).trans ?_)
      simp [Ty.fallInstr]
  · rfl

theorem lowered_fallOff (sc : Scopes Value) (ret : Ty) (hb : B.block < B.func.blocks.length)
    (ht : B.temporaries = []) (frame : Frame Value) :
    S.Lowered B (if B.closed then B
      else (B.write (freeCode frame.handles ++ [ret.fallInstr]) B.func.registers [] []).rescope sc)
        fun G =>
      ∀ k, B.exit G = some k → ∃ k', k = freeCode frame.handles ++ ret.fallInstr :: k' := by
  cases hc : B.closed with
  | true =>
    refine ⟨.refl hb ht, fun hl => hl, fun G _ k hk => ?_⟩
    rw [Body.exit, hc] at hk
    cases hk
  | false =>
    refine ⟨((Body.Becomes.refl hb ht).write _ _ _).rescope _,
      fun hl => (hl.write (.silent ?_) _ _).rescope _, fun G hG k hk => ?_⟩
    · rw [List.forall_mem_append, List.forall_mem_singleton]
      exact ⟨callee?_of_mem_freeCode _, by cases ret <;> rfl⟩
    · rw [Body.exit, hc] at hk
      cases hk
      have hleft := Func.left_write (n := B.func.registers) hb hG
      rw [List.append_assoc, List.singleton_append] at hleft
      exact ⟨_, hleft⟩

/-- The body of a function, before anything of it is lowered. -/
def Body.entry (F : Func) : Body := ⟨F.addBlock "entry", F.blocks.length, [], [], []⟩

theorem Body.ready_entry (F : Func) : (Body.entry F).Ready :=
  ⟨(Func.awaits_addBlock F "entry").lt, rfl,
    Body.closed_of_awaits (B := Body.entry F) (Func.awaits_addBlock F "entry")⟩

/-- A body is begun in a new block, wherever the target was positioned before. -/
theorem begin_state {α : Type} {F : Func} {k : Lower Recorder α}
    (hF : S.start.target.function? S.id = some F) (hsc : S.start.scopes = [])
    (hts : S.start.temporaries = []) :
    (emit (.appendBlock S.id "entry") >>= fun entry => emit (.positionAtEnd entry) >>= fun _ => k)
      S.start =
      k (S.state (Body.entry F)) := by
  have happend : emit (.appendBlock S.id "entry") S.start = .ok ⟨S.id, ⟨F.blocks.length⟩⟩
      { S.start with target := S.start.target.modifyFunction S.id (Func.addBlock "entry") } := by
    refine emit_of_perform ?_
    simp only [Recorder.perform, Recorder.answer, Recorder.appendBlock, hF]
    rfl
  rw [bind_of_ok happend]
  refine bind_of_ok (a := ()) (t := S.state (Body.entry F)) ?_
  have hset : S.start.target.functions.modify S.id.index (Option.map (Func.addBlock "entry")) =
      S.start.target.functions.set S.id.index (some (F.addBlock "entry")) := by
    simp only [Recorder.function?, Option.join_eq_some_iff] at hF
    apply List.ext_getElem?
    intro i
    rw [List.getElem?_modify, List.getElem?_set]
    by_cases hi : S.id.index = i
    · subst hi
      rw [hF]
      simp [S.live]
    · simp [hi]
  refine (emit_of_perform rfl).trans ?_
  simp [Site.state, Site.recorder, Body.entry, Recorder.modifyFunction, hset, hsc, hts]

theorem Definition.lowerBody_code {d : Definition} {F : Func} {s' : Lowering Recorder}
    (hF : S.start.target.function? S.id = some F)
    (hsc : S.start.scopes = []) (hts : S.start.temporaries = []) (hret : S.ret = d.prototype.ret)
    (h : d.lowerBody S.id S.start = .ok () s') :
    ∃ B', s' = S.state B' ∧ S.Lowered (Body.entry F) B' fun G =>
      DefinitionCode S.start.signatures G d F.registers (G.codeAt F.blocks.length) := by
  rw [Definition.lowerBody, begin_state hF hsc hts, bind_of_ok (S.emit_comment _ _)] at h
  have hready := Body.ready_entry F
  rw [bind_of_ok (pushScope_state S _)] at h
  obtain ⟨_, s₁, hparams, h⟩ := bind_eq_ok.1 h
  obtain ⟨is, n, sc, hcode, rfl⟩ := bindParams_code hparams
  obtain ⟨frame, rfl⟩ := hcode.frames rfl
  simp only [Body.rescope_write, Body.write_write, Body.rescope_rescope] at h
  have hopen : ∀ i ∈ [.comment ("function " ++ d.prototype.print)] ++ is, i.isTerminator = false :=
    List.forall_mem_cons.2 ⟨rfl, fun i hi => (hcode.open i hi).1⟩
  have hstraight := lowered_straight (S := S) (n := n) hready [] [frame] hopen
    (.silent (List.forall_mem_cons.2 ⟨rfl, fun i hi => (hcode.open i hi).2⟩))
  obtain ⟨_, s₂, hlist, h⟩ := bind_eq_ok.1 h
  obtain ⟨D, rfl, hD⟩ := Stmt.lowerList_code _ _ _ ((hready.write hopen n []).rescope [frame]) hlist
  have hbecomes := hstraight.becomes.trans hD.becomes
  obtain ⟨last, hlast⟩ := (hD.code _ (.refl _)).frames rfl
  have he := (fallOff_state S hlast).symm.trans h
  cases he
  have hfall := lowered_fallOff (S := S) [] d.prototype.ret hbecomes.block hbecomes.settled last
  refine ⟨_, rfl, hbecomes.trans hfall.becomes,
    fun hl => hfall.linked (hD.linked (hstraight.linked hl)), fun G hG => ?_⟩
  have hGD : D.func.Begins G := hfall.becomes.grows.begins.trans hG
  have hlistCode := hD.code G hGD
  have hleft := Func.left_write hready.block (hD.becomes.grows.begins.trans hGD)
  rw [hlast, hret] at hlistCode
  rw [← Func.left_eq_codeAt (Func.awaits_addBlock F "entry").codeAt]
  exact hleft ▸ .mk hcode hlistCode (hfall.code G hG)

end ImpFront
