import Mathlib
import ImpFront.Proofs.Body
import ImpFront.Proofs.Shape

/-! Lowering an expression writes its code. The result holds for every expression and every body
that lowering reaches, and what a new call names is in the target afterwards. -/

namespace ImpFront

open Lower

/-- The function that an instruction calls. -/
def Instr.callee? : Instr → Option String
  | .call _ callee _ => some callee
  | _ => none

theorem Instr.callee?_of_isData {i : Instr} (h : i.isData = true) : i.callee? = none := by
  cases i <;> simp_all [isData, callee?]

namespace Site

variable {S : Site} {B : Body}

theorem names_of_name_eq (B B' : Body) (hn : B'.func.name = B.func.name)
    (ds : List (String × Signature)) (hd : B'.declared = B.declared ++ ds) :
    (S.recorder B').names = (S.recorder B).names ++ ds.map Prod.fst := by
  have hset : ∀ F : Func, F.name = B.func.name →
      (S.start.target.functions.set S.id.index (some F)).filterMap (Option.map Func.name) =
        ((S.start.target.functions.map (Option.map Func.name)).set S.id.index
          (some B.func.name)).filterMap fun x => x := by
    intro F hF
    rw [← hF, ← Option.map_some, ← List.map_set, List.filterMap_map]
    rfl
  have hslot : ∀ l : List (String × Signature),
      (l.map Recorder.slot).filterMap (Option.map Func.name) = l.map Prod.fst := by
    intro l
    induction l with
    | nil => rfl
    | cons d l ih => simpa [Recorder.slot] using ih
  simp only [Recorder.names, recorder, List.filterMap_append, hd, List.map_append]
  rw [hset _ hn, hset _ rfl, hslot, hslot, List.append_assoc]

theorem names_write (is : List Instr) (n : Nat) (ts : List Value) (ds : List (String × Signature)) :
    (S.recorder (B.write is n ts ds)).names = (S.recorder B).names ++ ds.map Prod.fst :=
  names_of_name_eq B (B.write is n ts ds) rfl ds rfl

/-- Whatever the code calls is in the target once `ds` are declared there. -/
def Links (S : Site) (B : Body) (is : List Instr) (ds : List (String × Signature)) : Prop :=
  ∀ i ∈ is, ∀ c, i.callee? = some c → c ∈ (S.recorder B).names ++ ds.map Prod.fst

theorem Links.silent {is : List Instr} (h : ∀ i ∈ is, i.callee? = none) : S.Links B is [] :=
  fun i hi c hc => by simp [h i hi] at hc

theorem Links.data {is : List Instr} (h : ∀ i ∈ is, i.isData = true) : S.Links B is [] :=
  .silent fun i hi => Instr.callee?_of_isData (h i hi)

theorem Links.append {is js : List Instr} {ds es : List (String × Signature)} (h : S.Links B is ds)
    (n : Nat) (ts : List Value) (h' : S.Links (B.write is n ts ds) js es) :
    S.Links B (is ++ js) (ds ++ es) := by
  intro i hi c hc
  rw [List.map_append, ← List.append_assoc]
  rcases List.mem_append.1 hi with hi | hi
  · exact List.mem_append_left _ (h i hi c hc)
  · rw [← names_write is n ts ds]
    exact h' i hi c hc

theorem missing_links (S : Site) (B : Body) (name : String) (signature : Signature) (r : Reg)
    (args : List Value) :
    S.Links B [.call r name args] (S.missing B name signature) := by
  unfold missing
  split
  · rename_i hin
    simpa [Links, Instr.callee?] using hin
  · simp [Links, Instr.callee?]

theorem deref_code (S : Site) (B : Body) (v : Value) (p : Prim) :
    deref ⟨v, .pointer p⟩ (S.state B) = .ok ⟨.reg ⟨B.func.registers⟩, .plain p⟩
      (S.state (B.write [.load ⟨B.func.registers⟩ p v] (B.func.registers + 1) [] [])) :=
  (bind_of_ok (S.emit_load B p v)).trans rfl

theorem toPrim_code (S : Site) (B : Body) (t : Typed) :
    ∃ is v p n, PlainCode t B.func.registers is v p n ∧
      toPrim t (S.state B) = .ok (v, p) (S.state (B.write is n [] [])) := by
  obtain ⟨v, ty⟩ := t
  cases ty with
  | plain p =>
    refine ⟨_, _, _, _, .plain v p _, ?_⟩
    rw [Body.write_nil]
    rfl
  | bool =>
    refine ⟨_, _, _, _, .bool v _, ?_⟩
    refine (bind_of_ok (show deref ⟨v, .bool⟩ (S.state B) = .ok ⟨v, .bool⟩ (S.state B) from
      rfl)).trans ?_
    exact (bind_of_ok (S.emit_cast B .boolToInt v)).trans rfl
  | pointer p =>
    refine ⟨_, _, _, _, .pointer v p _, ?_⟩
    exact (bind_of_ok (S.deref_code B v p)).trans rfl

/-- A value of a known kind needs at most a cast. -/
theorem coerce_plain_code (S : Site) (B : Body) (v : Value) (p q : Prim) :
    ∃ is w n, CastCode v p q B.func.registers is w n ∧
      coerce ⟨v, .plain p⟩ q (S.state B) = .ok w (S.state (B.write is n [] [])) := by
  cases p <;> cases q
  · refine ⟨_, _, _, .same v _ _, ?_⟩
    rw [Body.write_nil]
    rfl
  · exact ⟨_, _, _, .widen v _, S.emit_cast B .intToDouble v⟩
  · exact ⟨_, _, _, .narrow v _, S.emit_cast B .doubleToInt v⟩
  · refine ⟨_, _, _, .same v _ _, ?_⟩
    rw [Body.write_nil]
    rfl

theorem coerce_code (S : Site) (B : Body) (t : Typed) (q : Prim) :
    ∃ is v n, CoerceCode t (.plain q) B.func.registers is v n ∧
      coerce t q (S.state B) = .ok v (S.state (B.write is n [] [])) := by
  obtain ⟨is, v, p, n, hplain, htoPrim⟩ := S.toPrim_code B t
  obtain ⟨js, w, n', hcast, hcoerce⟩ := S.coerce_plain_code (B.write is n [] []) v p q
  refine ⟨_, _, _, .plain hplain hcast, ?_⟩
  rw [Body.write_write] at hcoerce
  refine (bind_of_ok htoPrim).trans ?_
  exact hcoerce

theorem coerceTo_code {pos : Nat} {t : Typed} {ty : Ty} {v : Value} {s' : Lowering Recorder}
    (h : coerceTo pos t ty (S.state B) = .ok v s') :
    ∃ is n, CoerceCode t ty B.func.registers is v n ∧ s' = S.state (B.write is n [] []) := by
  cases ty with
  | plain q =>
    obtain ⟨is, w, n, hcode, hcoerce⟩ := S.coerce_code B t q
    have heq := hcoerce.symm.trans h
    cases heq
    exact ⟨is, n, hcode, rfl⟩
  | pointer q =>
    obtain ⟨w, ty⟩ := t
    simp only [coerceTo] at h
    split at h
    · rename_i hty
      subst hty
      cases h
      exact ⟨_, _, .pointer _ q _, by rw [Body.write_nil]⟩
    · cases h

theorem combine_code (S : Site) (B : Body) (op : BinOp) (l r : Typed) :
    ∃ is t n, CombineCode op l r B.func.registers is t n ∧
      combine op l r (S.state B) = .ok t (S.state (B.write is n [] [])) := by
  obtain ⟨is₁, v₁, p, n₁, h₁, e₁⟩ := S.toPrim_code B l
  obtain ⟨is₂, v₂, q, n₂, h₂, e₂⟩ := S.toPrim_code (B.write is₁ n₁ [] []) r
  rw [Body.write_write] at e₂
  obtain ⟨is₃, v₃, n₃, h₃, e₃⟩ :=
    S.coerce_plain_code (B.write (is₁ ++ is₂) n₂ [] []) v₁ p (p.wider q)
  rw [Body.write_write] at e₃
  obtain ⟨is₄, v₄, n₄, h₄, e₄⟩ :=
    S.coerce_plain_code (B.write (is₁ ++ is₂ ++ is₃) n₃ [] []) v₂ q (p.wider q)
  rw [Body.write_write] at e₄
  refine ⟨_, _, _, .mk h₁ h₂ h₃ h₄, ?_⟩
  refine (bind_of_ok
    e₁).trans ((bind_of_ok e₂).trans ((bind_of_ok e₃).trans ((bind_of_ok e₄).trans ?_)))
  have harith :=
    fun a => S.emit_arith (B.write (is₁ ++ is₂ ++ is₃ ++ is₄) n₄ [] []) a (p.wider q) v₃ v₄
  have hless := S.emit_compare (B.write (is₁ ++ is₂ ++ is₃ ++ is₄) n₄ [] []) .lt (p.wider q) v₃ v₄
  simp only [Body.write_write] at harith hless
  cases op with
  | add => exact (bind_of_ok (harith .add)).trans rfl
  | sub => exact (bind_of_ok (harith .sub)).trans rfl
  | mul => exact (bind_of_ok (harith .mul)).trans rfl
  | less => exact (bind_of_ok hless).trans rfl

theorem zero_code (S : Site) (B : Body) (p : Prim) :
    zero p (S.state B) = .ok p.zeroValue (S.state B) := by
  cases p <;> rfl

theorem condition_code (S : Site) (B : Body) (t : Typed) :
    ∃ is v n, ConditionCode t B.func.registers is v n ∧
      condition t (S.state B) = .ok v (S.state (B.write is n [] [])) := by
  obtain ⟨v, ty⟩ := t
  have hplain : ∀ (B : Body) (v : Value) (p : Prim),
      (toPrim ⟨v, .plain p⟩ >>= fun x => zero x.2 >>= fun z => emit (.compare .ne x.2 x.1 z))
        (S.state B) =
        .ok (.reg ⟨B.func.registers⟩)
          (S.state (B.write [.compare ⟨B.func.registers⟩ .ne p v p.zeroValue] (B.func.registers + 1)
            [] [])) := by
    intro B v p
    exact (bind_of_ok (S.zero_code B p)).trans (S.emit_compare B .ne p v p.zeroValue)
  cases ty with
  | plain p => exact ⟨_, _, _, .plain v p _, hplain B v p⟩
  | bool =>
    refine ⟨_, _, _, .bool v _, ?_⟩
    rw [Body.write_nil]
    rfl
  | pointer p =>
    refine ⟨_, _, _, .pointer v p _, ?_⟩
    have h := hplain (B.write [.load ⟨B.func.registers⟩ p v] (B.func.registers + 1) [] [])
      (.reg ⟨B.func.registers⟩) p
    rw [Body.write_write] at h
    exact (bind_of_ok (S.deref_code B v p)).trans h

end Site

variable {S : Site}

theorem resolve_state {B : Body} {pos : Nat} {x : String} {l : Local Value} {s' : Lowering Recorder}
    (h : resolve pos x (S.state B) = .ok l s') :
    s' = S.state B ∧ ∃ i, B.scopes.lookup x = some (i, l) := by
  unfold resolve at h
  cases hl : (S.state B).scopes.lookup x with
  | none => rw [hl] at h; cases h
  | some r => rw [hl] at h; cases h; exact ⟨rfl, _, hl⟩

theorem signatureOf_state {B : Body} {pos : Nat} {f : String} {signature : Signature}
    {s' : Lowering Recorder} (h : signatureOf pos f (S.state B) = .ok signature s') :
    s' = S.state B ∧ S.start.signatures.find? f = some signature := by
  unfold signatureOf at h
  cases hl : (S.state B).signatures.find? f with
  | none => rw [hl] at h; cases h
  | some r => rw [hl] at h; cases h; exact ⟨rfl, hl⟩

mutual

theorem Expr.lower_code : ∀ (e : Expr) (B : Body) {t : Typed} {s' : Lowering Recorder},
    e.lower (S.state B) = .ok t s' →
    ∃ is n ts ds, ExprCode S.start.signatures B.scopes e B.func.registers is t n ts ∧
      s' = S.state (B.write is n ts ds) ∧ S.Links B is ds
  | .int pos w, B, t, s', h => by
    cases h
    exact ⟨_, _, _, [], .int pos w _, by rw [Body.write_nil], .data (by simp [Instr.isData])⟩
  | .double pos x, B, t, s', h => by
    cases h
    exact ⟨_, _, _, [], .double pos x _, by rw [Body.write_nil], .data (by simp [Instr.isData])⟩
  | .var pos x, B, t, s', h => by
    simp only [Expr.lower] at h
    obtain ⟨l, s₁, hres, hread⟩ := bind_eq_ok.1 h
    obtain ⟨rfl, i, hl⟩ := resolve_state hres
    obtain ⟨v, ty, heap⟩ := l
    cases ty with
    | plain p =>
      have he := ((bind_of_ok (S.emit_load B p v)).trans rfl).symm.trans hread
      cases he
      exact ⟨_, _, _, [], .slot pos _ hl, rfl, .data (by simp [Instr.isData])⟩
    | pointer p =>
      cases hread
      exact ⟨_, _, _, [], .pointer pos _ hl, by rw [Body.write_nil], .data (by simp [Instr.isData])⟩
  | .binary pos op l r, B, t, s', h => by
    simp only [Expr.lower] at h
    obtain ⟨u, s₁, hu, h⟩ := bind_eq_ok.1 h
    obtain ⟨w, s₂, hw, h⟩ := bind_eq_ok.1 h
    obtain ⟨is, n, ts, ds, hcode, rfl, hlinks⟩ := Expr.lower_code l B hu
    obtain ⟨js, m, us, es, hcode', rfl, hlinks'⟩ := Expr.lower_code r _ hw
    obtain ⟨ks, t', k, hcomb, he⟩ := S.combine_code ((B.write is n ts ds).write js m us es) op u w
    have hteq := he.symm.trans h
    cases hteq
    refine ⟨_, _, _, ds ++ es, .binary pos hcode hcode' hcomb, ?_, ?_⟩
    · simp
    · rw [← List.append_nil (ds ++ es)]
      exact (hlinks.append n ts hlinks').append m (us ++ ts) (.data hcomb.data)
  | .call pos f args, B, t, s', h => by
    simp only [Expr.lower] at h
    obtain ⟨signature, s₁, hsig, h⟩ := bind_eq_ok.1 h
    obtain ⟨rfl, hfind⟩ := signatureOf_state hsig
    split at h
    · cases h
    · rename_i hlen
      obtain ⟨vs, s₂, hargs, h⟩ := bind_eq_ok.1 h
      obtain ⟨is, n, ts, ds, hcode, rfl, hlinks⟩ := Expr.lowerArgs_code args _ B (by omega) hargs
      have hteq := (S.call_state (B.write is n ts ds) hfind pos signature.ret vs).symm.trans h
      cases hteq
      refine ⟨_, _, _, _, .call pos hfind hcode, ?_,
        hlinks.append n ts (S.missing_links _ f signature _ _)⟩
      simp

theorem Expr.lowerArgs_code :
    ∀ (es : List Expr) (tys : List Ty) (B : Body) {vs : List Value} {s' : Lowering Recorder},
    tys.length = es.length → Expr.lowerArgs es tys (S.state B) = .ok vs s' →
    ∃ is n ts ds, ArgsCode S.start.signatures B.scopes es tys B.func.registers is vs n ts ∧
      s' = S.state (B.write is n ts ds) ∧ S.Links B is ds
  | [], tys, B, vs, s', hlen, h => by
    obtain rfl : tys = [] := List.length_eq_zero_iff.1 hlen
    cases h
    exact ⟨_, _, _, [], .nil _, by rw [Body.write_nil], .data (by simp [Instr.isData])⟩
  | e :: es, [], B, vs, s', hlen, h => by simp at hlen
  | e :: es, ty :: tys, B, vs, s', hlen, h => by
    simp only [Expr.lowerArgs] at h
    obtain ⟨t, s₁, ht, h⟩ := bind_eq_ok.1 h
    obtain ⟨v, s₂, hv, h⟩ := bind_eq_ok.1 h
    obtain ⟨ws, s₃, hws, h⟩ := bind_eq_ok.1 h
    cases h
    obtain ⟨is, n, ts, ds, hcode, rfl, hlinks⟩ := Expr.lower_code e B ht
    obtain ⟨js, m, hco, rfl⟩ := Site.coerceTo_code hv
    rw [Body.write_write] at hws
    obtain ⟨ks, k, us, es', hcode', rfl, hlinks'⟩ :=
      Expr.lowerArgs_code es tys _ (by simpa using hlen) hws
    refine ⟨_, _, _, ds ++ es', .cons hcode hco hcode', ?_, ?_⟩
    · simp
    · simpa using (hlinks.append n ts (.data hco.data)).append m ([] ++ ts) hlinks'

end

end ImpFront
