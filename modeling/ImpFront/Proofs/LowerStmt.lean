import Mathlib
import ImpFront.Proofs.Growth
import ImpFront.Proofs.LowerExpr

/-! Lowering a statement writes its code. A statement without branches adds straight code to the
current block. One with branches ends in another block, and its code is found in every function `G`
that goes on from what was written. -/

namespace ImpFront

open Lower

variable {S : Site} {B : Body}

theorem release_state (S : Site) (vs : List Value) (B : Body) :
    release vs (S.state B) = .ok () (S.state (B.write (freeCode vs) B.func.registers [] [])) := by
  induction vs generalizing B with
  | nil =>
    simp only [freeCode, List.map_nil, Body.write_nil]
    rfl
  | cons v vs ih =>
    refine (bind_of_ok (S.emit_heapFree B v)).trans ((ih _).trans ?_)
    simp [freeCode]

theorem settle_state {is : List Instr} {n : Nat} {ts : List Value} {ds : List (String × Signature)}
    (hB : B.temporaries = []) :
    releaseTemporaries (S.state (B.write is n ts ds)) =
      .ok () (S.state (B.write (is ++ settleCode ts) n [] ds)) := by
  have htake :
      takeTemporaries (S.state (B.write is n ts ds)) = .ok ts (S.state (B.write is n [] ds)) := by
    simp [takeTemporaries, Site.state, Site.recorder, Body.write, hB]
  refine (bind_of_ok htake).trans ?_
  cases ts with
  | nil =>
    refine (release_state S [] _).trans ?_
    simp [settleCode]
  | cons t ts =>
    refine (bind_of_ok (S.emit_comment _ _)).trans ((release_state S _ _).trans ?_)
    simp [settleCode]

theorem declare_state {pos : Nat} {x : String} {l : Local Value} {s' : Lowering Recorder}
    (h : declare pos x l (S.state B) = .ok () s') :
    ∃ frame sc, B.scopes = frame :: sc ∧ frame.find? x = none ∧
      s' = S.state (B.rescope (((x, l) :: frame) :: sc)) := by
  simp only [declare] at h
  cases hsc : B.scopes with
  | nil =>
    have hs : (S.state B).scopes = [] := hsc
    rw [hs] at h
    cases h
  | cons frame sc =>
    have hs : (S.state B).scopes = frame :: sc := hsc
    rw [hs, Scopes.declare] at h
    cases hx : frame.find? x with
    | some l' =>
      rw [hx] at h
      cases h
    | none =>
      rw [hx] at h
      cases h
      exact ⟨frame, sc, rfl, hx, rfl⟩

theorem declareNames_code {pos : Nat} {ty : Ty} :
    ∀ {xs : List String} {B : Body} {s' : Lowering Recorder},
    declareNames pos ty xs (S.state B) = .ok () s' →
    ∃ is n sc, DeclareCode ty B.scopes xs B.func.registers is sc n ∧
      s' = S.state ((B.write is n [] []).rescope sc) ∧ ∀ i ∈ is, i.callee? = none
  | [], B, s', h => by
    cases h
    exact ⟨_, _, _, .nil _ _, by rw [Body.write_nil, Body.rescope_self], by simp⟩
  | x :: xs, B, s', h => by
    simp only [declareNames] at h
    obtain ⟨sc, s₁, hsc, h⟩ := bind_eq_ok.1 h
    cases hsc
    split at h
    · cases h
    · rename_i hdecl
      have hrest : (declare pos x ⟨.reg ⟨B.func.registers⟩, ty, ty.isPointer⟩ >>= fun _ =>
          declareNames pos ty xs)
          (S.state (B.write [ty.allocInstr ⟨B.func.registers⟩ x] (B.func.registers + 1) [] [])) =
            .ok () s' := by
        cases ty with
        | plain p => exact (bind_of_ok (S.emit_stackAlloc B p x)).symm.trans h
        | pointer p => exact (bind_of_ok (S.emit_heapAlloc B p x)).symm.trans h
      obtain ⟨_, s₁, hd, hrest⟩ := bind_eq_ok.1 hrest
      obtain ⟨frame, sc, hsc, hx, rfl⟩ := declare_state hd
      obtain ⟨is, n, sc', hcode, rfl, hcall⟩ := declareNames_code hrest
      refine ⟨ty.allocInstr ⟨B.func.registers⟩ x :: is, n, sc', ?_, ?_, ?_⟩
      · rw [show B.scopes = frame :: sc from hsc]
        exact .cons hx hcode
      · simp
      · rw [List.forall_mem_cons]
        exact ⟨by cases ty <;> rfl, hcall⟩

theorem content_code {ty : Ty} {v : Value} {k : Value → Lower Recorder Unit}
    {s' : Lowering Recorder} (h : (match ty with
      | .pointer p => emit (.load p v) >>= k
      | .plain _ => pure v >>= k : Lower Recorder Unit) (S.state B) = .ok () s') :
    ∃ is w n, ContentCode ty v B.func.registers is w n ∧
      k w (S.state (B.write is n [] [])) = .ok () s' := by
  cases ty with
  | plain p => exact ⟨_, _, _, .plain p v _, by rw [Body.write_nil]; exact h⟩
  | pointer p => exact ⟨_, _, _, .pointer p v _, (bind_of_ok (S.emit_load B p v)).symm.trans h⟩

theorem ContentCode.data {ty : Ty} {v w : Value} {n n' : Nat} {is : List Instr}
    (h : ContentCode ty v n is w n') :
    ∀ i ∈ is, i.isData = true := by
  cases h <;> simp [Instr.isData]

theorem callee?_of_mem_freeCode (vs : List Value) : ∀ i ∈ freeCode vs, i.callee? = none := by
  simp [freeCode, Instr.callee?]

theorem callee?_of_mem_settleCode (ts : List Value) : ∀ i ∈ settleCode ts, i.callee? = none := by
  unfold settleCode
  rw [List.forall_mem_append]
  refine ⟨?_, callee?_of_mem_freeCode ts⟩
  split <;> simp [Instr.callee?]

theorem callee?_of_mem_leaveCode (vs : List Value) : ∀ i ∈ leaveCode vs, i.callee? = none := by
  unfold leaveCode
  rw [List.forall_mem_append]
  refine ⟨?_, callee?_of_mem_freeCode vs⟩
  split <;> simp [Instr.callee?]

theorem assign_code {pos : Nat} {x : String} {e : Expr} {s' : Lowering Recorder}
    (hB : B.temporaries = []) (h : assign pos x e (S.state B) = .ok () s') :
    ∃ is n ds, AssignCode S.start.signatures B.scopes x e B.func.registers is n ∧
      s' = S.state (B.write is n [] ds) ∧ S.Links B is ds := by
  simp only [assign] at h
  obtain ⟨l, s₁, hres, h⟩ := bind_eq_ok.1 h
  obtain ⟨rfl, i, hl⟩ := resolve_state hres
  obtain ⟨t, s₂, ht, h⟩ := bind_eq_ok.1 h
  obtain ⟨is, n₁, ts, ds, hcode, rfl, hlinks⟩ := Expr.lower_code e B ht
  obtain ⟨v, s₃, hv, h⟩ := bind_eq_ok.1 h
  obtain ⟨js, n₂, hco, rfl⟩ := Site.coerceTo_code hv
  obtain ⟨ks, w, n₃, hcontent, h⟩ := content_code h
  obtain ⟨_, s₄, hstore, h⟩ := bind_eq_ok.1 h
  have he := (S.emit_store _ w l.storage).symm.trans hstore
  cases he
  simp only [Body.write_write, Body.write_registers, List.append_nil, List.nil_append] at h
  rw [settle_state hB] at h
  cases h
  refine ⟨_, _, ds, .mk hl hcode hco hcontent, by simp, ?_⟩
  rw [← List.append_nil ds]
  refine Site.Links.append ?_ n₃ ts (.silent (callee?_of_mem_settleCode ts))
  rw [List.append_assoc, List.append_assoc, ← List.append_nil ds]
  refine hlinks.append n₁ ts (.silent ?_)
  simp only [List.forall_mem_append, List.forall_mem_singleton]
  exact ⟨fun i hi => Instr.callee?_of_isData (hco.data i hi),
    fun i hi => Instr.callee?_of_isData (hcontent.data i hi), rfl⟩

theorem test_code {e : Expr} {v : Value} {s' : Lowering Recorder} (hB : B.temporaries = [])
    (h : test e (S.state B) = .ok v s') :
    ∃ is n ds, TestCode S.start.signatures B.scopes e B.func.registers is v n ∧
      s' = S.state (B.write is n [] ds) ∧ S.Links B is ds := by
  simp only [test] at h
  obtain ⟨t, s₁, ht, h⟩ := bind_eq_ok.1 h
  obtain ⟨is, n, ts, ds, hcode, rfl, hlinks⟩ := Expr.lower_code e B ht
  obtain ⟨w, s₂, hw, h⟩ := bind_eq_ok.1 h
  obtain ⟨js, w', m, hcond, hw'⟩ := S.condition_code (B.write is n ts ds) t
  have he := hw'.symm.trans hw
  cases he
  simp only [Body.write_write, List.append_nil, List.nil_append] at h
  obtain ⟨_, s₃, hsettle, h⟩ := bind_eq_ok.1 h
  rw [settle_state hB] at hsettle
  cases hsettle
  cases h
  refine ⟨_, _, ds, .mk hcode hcond, by simp, ?_⟩
  rw [← List.append_nil ds]
  refine Site.Links.append ?_ m ts (.silent (callee?_of_mem_settleCode ts))
  rw [← List.append_nil ds]
  exact hlinks.append n ts (.data hcond.data)

theorem result_code {is : List Instr} {n : Nat} {ts : List Value} {ds : List (String × Signature)}
    {ret : Ty} {e : Expr} {v w : Value} {s' : Lowering Recorder} (hB : B.temporaries = [])
    (h : result ret e (sparedBy B.scopes e).isSome v (S.state (B.write is n ts ds)) = .ok w s') :
    ∃ js us m,
      ResultCode B.scopes ret e v ts n js w us m ∧ s' = S.state (B.write (is ++ js) m us ds) ∧
      ∀ i ∈ js, i.callee? = none := by
  cases ret with
  | plain p =>
    cases h
    exact ⟨_, _, _, .plain p e v ts n, by simp, by simp⟩
  | pointer p =>
    simp only [result] at h
    split at h
    · rename_i hcall
      have hdrop : dropTemporary (S.state (B.write is n ts ds)) =
          .ok () (S.state (B.write is n ts.tail ds)) := by
        simp [dropTemporary, Site.state, Site.recorder, Body.write, hB]
      rw [bind_of_ok hdrop] at h
      cases h
      exact ⟨_, _, _, .call p v ts n hcall, by simp, by simp⟩
    · rename_i hcall
      split at h
      · rename_i hspared
        cases h
        exact ⟨_, _, _, .spared p v ts n (by simpa using hcall) hspared, by simp, by simp⟩
      · rename_i hspared
        have hcopy :
            copyToHeap p v (S.state (B.write is n ts ds)) = .ok (.reg ⟨n⟩) (S.state (B.write
            (is ++ [.heapAlloc ⟨n⟩ p "result", .load ⟨n + 1⟩ p v, .store (.reg ⟨n + 1⟩) (.reg ⟨n⟩)])
              (n + 2) ts ds)) := by
          refine (bind_of_ok (S.emit_heapAlloc _ p "result")).trans ?_
          refine (bind_of_ok (S.emit_load _ p v)).trans ?_
          refine (bind_of_ok (S.emit_store _ _ _)).trans ?_
          simp [pure_apply]
        have he := hcopy.symm.trans h
        cases he
        refine ⟨_, _, _, .copy p v ts n (by simpa using hcall) (by simpa using hspared), rfl, ?_⟩
        simp [Instr.callee?]

theorem current_state (S : Site) (B : Body) :
    current (S.state B) = .ok ⟨S.id, S.ret⟩ (S.state B) := by
  have h : (S.state B).current = some ⟨S.id, S.ret⟩ := S.current
  simp only [current, h]

theorem scopes_state (S : Site) (B : Body) : scopes (S.state B) = .ok B.scopes (S.state B) := rfl

theorem pushScope_state (S : Site) (B : Body) :
    pushScope (S.state B) = .ok () (S.state (B.rescope ([] :: B.scopes))) := rfl

theorem giveBack_code {pos : Nat} {e : Expr} {s' : Lowering Recorder} (hB : B.temporaries = [])
    (h : giveBack pos e (S.state B) = .ok () s') :
    ∃ is v n ds, ReturnCode S.start.signatures S.ret B.scopes e B.func.registers is v n ∧
      s' = S.state (B.write (is ++ [.ret v]) n [] ds) ∧ S.Links B (is ++ [.ret v]) ds := by
  simp only [giveBack] at h
  rw [bind_of_ok (current_state S B)] at h
  obtain ⟨sc, s₁, hsc, h⟩ := bind_eq_ok.1 h
  cases hsc
  obtain ⟨t, s₂, ht, h⟩ := bind_eq_ok.1 h
  obtain ⟨is, n, ts, ds, hcode, rfl, hlinks⟩ := Expr.lower_code e B ht
  obtain ⟨v, s₃, hv, h⟩ := bind_eq_ok.1 h
  obtain ⟨js, m, hco, rfl⟩ := Site.coerceTo_code hv
  simp only [Body.write_write, List.append_nil, List.nil_append] at h
  obtain ⟨w, s₄, hw, h⟩ := bind_eq_ok.1 h
  obtain ⟨ks, us, k, hresult, rfl, hquiet⟩ := result_code hB hw
  obtain ⟨_, s₅, hsettle, h⟩ := bind_eq_ok.1 h
  rw [settle_state hB] at hsettle
  cases hsettle
  obtain ⟨sc, s₆, hsc, h⟩ := bind_eq_ok.1 h
  cases hsc
  rw [bind_of_ok (release_state S _ _)] at h
  have he := (S.emit_ret _ w).symm.trans h
  cases he
  refine ⟨_, w, _, ds, .mk hcode hco hresult, ?_, ?_⟩
  · simp [Site.state]
  · rw [← List.append_nil ds, List.append_assoc, List.append_assoc, List.append_assoc,
      List.append_assoc]
    refine hlinks.append n ts (.silent ?_)
    simp only [List.forall_mem_append, List.forall_mem_singleton]
    exact ⟨fun i hi => Instr.callee?_of_isData (hco.data i hi), hquiet,
      callee?_of_mem_settleCode us, callee?_of_mem_freeCode _, rfl⟩

end ImpFront
