import Mathlib
import ImpFront.Proofs.Ownership
import ImpFront.Proofs.Session

/-! Every function of a compiled module handles its heap cells by the rules: on no path is a cell
lost, released twice or used after its release. The one exception is a plain `return x` of a local
that owns a cell: the cell is read, spared like a returned pointer, and lost. -/

namespace ImpFront

variable {F : Func} {m : Module} {sc : Scopes Value} {ts : List Value} {n n' : Nat}
  {done : List Instr}

namespace Owned

theorem straight_comment (F : Func) (m : Module) (done : List Instr) (text : String) :
    F.Straight m done [.comment text] :=
  .single rfl trivial

theorem comment (h : Owned m F.signature.params sc ts n done) (text : String) :
    Owned m F.signature.params sc ts n (done ++ [.comment text]) :=
  h.quiet (Holdings.after_comment text) le_rfl

/-- Temporaries are released, but for those that are handed on. -/
theorem free_temporaries (us : List Value) (h : Owned m F.signature.params sc (us ++ ts) n done) :
    F.Straight m done (freeCode ts) ∧ Owned m F.signature.params sc us n (done ++ freeCode ts) := by
  obtain ⟨hus, hts, hdisjoint⟩ := List.nodup_append.1 h.nodup
  have hcells : ∀ v ∈ ts, ∃ r ∈ (Holdings.after m done).live, v = .reg r := fun v hv => by
    obtain ⟨⟨r, rfl, -⟩, -⟩ := h.temporaries v (List.mem_append_right _ hv)
    exact ⟨r, (h.live r).2 (.inr (List.mem_append_right _ hv)), rfl⟩
  obtain ⟨hstraight, hslots, hlive⟩ := straight_free done ts hts hcells
  refine ⟨hstraight, h.layout, fun r => ?_, fun v hv => h.temporaries v (List.mem_append_left _ hv),
    hus, by rw [hslots]; exact h.slots, fun x r p hd => List.mem_append_left _ (h.cells x r p hd)⟩
  rw [hlive, h.live, List.mem_append]
  constructor
  · rintro ⟨hr | hr | hr, hnot⟩
    · exact .inl hr
    · exact .inr hr
    · exact absurd hr hnot
  · rintro (hr | hr)
    · exact ⟨.inl hr, fun ht => (h.temporaries _ (List.mem_append_right _ ht)).2 hr⟩
    · exact ⟨.inr (.inl hr), fun ht => hdisjoint _ hr _ ht rfl⟩

/-- The end of a statement. -/
theorem settle (us : List Value) (h : Owned m F.signature.params sc (us ++ ts) n done) :
    F.Straight m done (settleCode ts) ∧
    Owned m F.signature.params sc us n (done ++ settleCode ts) := by
  unfold settleCode
  split
  · exact h.free_temporaries us
  · obtain ⟨hstraight, howned⟩ := (h.comment _).free_temporaries us
    exact ⟨(straight_comment F m done _).append hstraight, by simpa using howned⟩

/-- The end of a block. -/
theorem free_frame {f : Frame Value} (h : Owned m F.signature.params (f :: sc) [] n done) :
    F.Straight m done (freeCode f.handles) ∧
    Owned m F.signature.params sc [] n (done ++ freeCode f.handles) := by
  have hreleases : Scopes.releases none (f :: sc) = f.handles ++ Scopes.releases none sc := by
    simp [Scopes.releases_none]
  have hnodup := h.layout.nodup_releases
  rw [hreleases] at hnodup
  have hcells : ∀ v ∈ f.handles, ∃ r ∈ (Holdings.after m done).live, v = .reg r := fun v hv => by
    have hmem : v ∈ Scopes.releases none (f :: sc) := hreleases ▸ List.mem_append_left _ hv
    obtain ⟨r, rfl, -⟩ := h.layout.reg_of_mem_releases hmem
    exact ⟨r, (h.live r).2 (.inl hmem), rfl⟩
  obtain ⟨hstraight, hslots, hlive⟩ :=
    straight_free done f.handles (List.nodup_append.1 hnodup).1 hcells
  have hin : ∀ d, d ∈ sc.flatten → d ∈ List.flatten (f :: sc) :=
    fun d hd => List.mem_append_right _ hd
  refine ⟨hstraight, h.layout.pop, fun r => ?_, by simp, by simp, ?_, fun x r p hd => ?_⟩
  · rw [hlive, h.live, hreleases, List.mem_append]
    simp only [List.not_mem_nil, or_false]
    have hdisjoint := (List.nodup_append.1 hnodup).2.2
    exact ⟨fun hr => hr.1.resolve_left hr.2, fun hr => ⟨.inr hr, fun hf => hdisjoint _ hf _ hr rfl⟩⟩
  · rw [hslots]
    exact fun x r p heap hd => h.slots x r p heap (hin _ hd)
  · exact List.mem_append_left _ (h.cells x r p (hin _ hd))

theorem leave {f : Frame Value} (h : Owned m F.signature.params (f :: sc) [] n done) :
    F.Straight m done (leaveCode f.handles) ∧
    Owned m F.signature.params sc [] n (done ++ leaveCode f.handles) := by
  unfold leaveCode
  split
  · exact h.free_frame
  · obtain ⟨hstraight, howned⟩ := (h.comment _).free_frame
    exact ⟨(straight_comment F m done _).append hstraight, by simpa using howned⟩

/-- The cells of all scopes are released, but for a spared one. -/
theorem free_scopes (h : Owned m F.signature.params sc ts n done) (spared : Option (Nat × String)) :
    F.Straight m done (freeCode (sc.releases spared)) ∧
      ∀ r, r ∈ (Holdings.after m (done ++ freeCode (sc.releases spared))).live ↔
        (.reg r ∈ sc.releases none ∨ .reg r ∈ ts) ∧ .reg r ∉ sc.releases spared := by
  have hsub := Scopes.releases_sublist spared sc
  have hcells : ∀ v ∈ sc.releases spared, ∃ r ∈ (Holdings.after m done).live, v = .reg r :=
    fun v hv => by
    obtain ⟨r, rfl, -⟩ := h.layout.reg_of_mem_releases (hsub.subset hv)
    exact ⟨r, (h.live r).2 (.inl (hsub.subset hv)), rfl⟩
  obtain ⟨hstraight, -, hlive⟩ := straight_free done _ (h.layout.nodup_releases.sublist hsub) hcells
  exact ⟨hstraight, fun r => by rw [hlive, h.live]⟩

theorem free_all (h : Owned m F.signature.params sc ts n done) (r : Reg) :
    r ∈ (Holdings.after m (done ++ freeCode (sc.releases none))).live ↔ .reg r ∈ ts := by
  rw [(h.free_scopes none).2]
  exact ⟨fun hr => hr.1.resolve_left hr.2, fun hr => ⟨.inr hr, (h.temporaries _ hr).2⟩⟩

theorem free_spared {x : String} {i : Nat} {l : Local Value}
    (h : Owned m F.signature.params sc [] n done) (hl : sc.lookup x = some (i, l))
    (hheap : l.heap = true) (r : Reg) :
    r ∈ (Holdings.after m (done ++ freeCode (sc.releases (some (i, x))))).live ↔
    .reg r = l.storage := by
  have hperm := Scopes.releases_perm h.layout.names hl hheap
  have hnodup := (hperm.nodup_iff.1 h.layout.nodup_releases)
  rw [(h.free_scopes _).2, hperm.mem_iff, List.mem_cons]
  simp only [List.not_mem_nil, or_false]
  refine ⟨fun hr => hr.1.resolve_right hr.2, fun hr => ⟨.inl hr, ?_⟩⟩
  rw [hr]
  exact (List.nodup_cons.1 hnodup).1

end Owned

theorem Owned.declare {f : Frame Value} {x : String} (ty : Ty)
    (h : Owned m F.signature.params (f :: sc) [] n done) (hx : f.find? x = none) :
    F.Straight m done [ty.allocInstr ⟨n⟩ x] ∧
      Owned m F.signature.params (((x, ⟨.reg ⟨n⟩, ty, ty.isPointer⟩) :: f) :: sc) [] (n + 1)
        (done ++ [ty.allocInstr ⟨n⟩ x]) := by
  have hnew : ∀ r : Reg, Value.reg ⟨n⟩ = .reg r → n ≤ r.index := fun r hr => by
    cases hr
    exact le_rfl
  have hcells : ∀ i x' r p, (x', ⟨.reg r, .pointer p, true⟩) ∈ List.flatten (f :: sc) →
      Instr.heapAlloc r p x' ∈ done ++ [i] :=
    fun i x' r p hd => List.mem_append_left _ (h.cells x' r p hd)
  cases ty with
  | plain p =>
    have hafter : Holdings.after m (done ++ [.stackAlloc ⟨n⟩ p x]) =
        ⟨insert ⟨n⟩ (Holdings.after m done).slots, (Holdings.after m done).live⟩ := by
      simp [Holdings.after_append, Holdings.step, Module.acquired?]
    refine ⟨.single rfl trivial, h.layout.declare hx (Nat.le_succ n) (.slot (Nat.lt_succ_self n))
      hnew, fun r => ?_, by simp, by simp, ?_, ?_⟩
    · simp only [Ty.allocInstr, hafter]
      exact h.live r
    · simp only [Ty.allocInstr, hafter, List.flatten_cons, List.cons_append, List.mem_cons,
        Finset.mem_insert]
      rintro x' r q heap (he | hd)
      · cases he
        exact .inl rfl
      · exact .inr (h.slots x' r q heap hd)
    · rintro x' r q (_ | ⟨_, hd⟩)
      exact hcells _ x' r q hd
  | pointer p =>
    have hacq : m.acquired? (.heapAlloc ⟨n⟩ p x) = some ⟨n⟩ := rfl
    refine ⟨.single rfl (h.fresh le_rfl), h.layout.declare hx (Nat.le_succ n)
      (.cell (Nat.lt_succ_self n)) hnew, fun r => ?_, by simp, by simp, ?_, ?_⟩
    · have hreleases : Scopes.releases none (((x, ⟨.reg ⟨n⟩, .pointer p, true⟩) :: f) :: sc) =
          .reg ⟨n⟩ :: Scopes.releases none (f :: sc) := by
        simp [Scopes.releases]
      rw [Ty.allocInstr, Holdings.after_acquired hacq, Finset.mem_insert, h.live, Ty.isPointer,
        hreleases, List.mem_cons, Value.reg.injEq]
      exact or_assoc.symm
    · rw [Ty.allocInstr, Holdings.after_acquired hacq]
      rintro x' r q heap (_ | ⟨_, hd⟩)
      exact h.slots x' r q heap hd
    · rintro x' r q (_ | ⟨_, hd⟩)
      · simp [Ty.allocInstr]
      · exact hcells _ x' r q hd

variable {Γ : Signatures}

theorem CoerceCode.readable {t : Typed} {ty : Ty} {is : List Instr} {v : Value} {h : Holdings}
    (hc : CoerceCode t ty n is v n') (ht : t.Readable F h) : Typed.Readable F h ⟨v, .ofTy ty⟩ := by
  cases hc with
  | plain => exact fun p hp => by cases hp
  | pointer v p => exact fun q _ => ht p rfl

theorem ContentCode.readsOnly {ty : Ty} {v w : Value} {is : List Instr}
    (h : ContentCode ty v n is w n') :
    ReadsOnly is [⟨v, .ofTy ty⟩] := by
  cases h <;> simp +contextual [ReadsOnly, ValTy.ofTy]

theorem AssignCode.owned (hF : F.Resolves m Γ) {x : String} {e : Expr} {is : List Instr}
    (h : AssignCode Γ sc x e n is n') (hmem : ∀ i ∈ is, i ∈ F.code)
    (ho : Owned m F.signature.params sc [] n done) :
    F.Straight m done is ∧ Owned m F.signature.params sc [] n' (done ++ is) := by
  cases h with
  | @mk i l n n₁ n₂ n₃ is js ks t v w ts hl he hc hk =>
    simp only [List.forall_mem_append] at hmem
    obtain ⟨hexpr, ht⟩ := he.leaves hF hmem.1.1.1.1 ho
    have hcoerce : F.Leaves m sc (ts ++ []) n₁ (done ++ is) js [] n₂ :=
      .data [_] hexpr.owned hc.data hc.readsOnly (by simpa using ht) hc.le
    have hv := hc.readable (ht.mono hcoerce.le)
    have hboth := hexpr.trans hcoerce
    have hcode := hboth.trans (.data [_] hboth.owned hk.data hk.readsOnly (by simpa using hv) hk.le)
    have hstore : F.Straight m (done ++ (is ++ js ++ ks)) [.store w l.storage] :=
      .single rfl (hcode.owned.address (Scopes.mem_of_lookup hl))
    obtain ⟨hsettle, hend⟩ :=
      Owned.settle [] (by simpa using hcode.owned.quiet (Holdings.after_store w l.storage) le_rfl)
    exact ⟨(hcode.straight.append hstore).append (by simpa using hsettle), by simpa using hend⟩

theorem TestCode.owned (hF : F.Resolves m Γ) {e : Expr} {is : List Instr} {v : Value}
    (h : TestCode Γ sc e n is v n') (hmem : ∀ i ∈ is, i ∈ F.code)
    (ho : Owned m F.signature.params sc [] n done) :
    F.Straight m done is ∧ Owned m F.signature.params sc [] n' (done ++ is) := by
  cases h with
  | mk he hc =>
    simp only [List.forall_mem_append] at hmem
    obtain ⟨hexpr, ht⟩ := he.leaves hF hmem.1.1 ho
    have hcode := hexpr.trans (.data [_] hexpr.owned hc.data hc.readsOnly (by simpa using ht) hc.le)
    obtain ⟨hsettle, hend⟩ := Owned.settle [] (by simpa using hcode.owned)
    exact ⟨hcode.straight.append (by simpa using hsettle), by simpa using hend⟩

/-- Conversions and releases do not hide a read. -/
theorem readsLocal_append {is : List Instr} {r : Reg} (h : ∀ i ∈ is, i.trails = true) :
    m.ReadsLocal (uncommented (done ++ is)) r ↔ m.ReadsLocal (uncommented done) r := by
  rw [uncommented_append, uncommented_of_trails h]
  exact lastRead_append h

theorem readsLocal_settle {r : Reg} :
    m.ReadsLocal (uncommented (done ++ settleCode ts)) r ↔ m.ReadsLocal (uncommented done) r := by
  rw [uncommented_append, uncommented_settleCode]
  exact lastRead_append trails_of_mem_freeCode

theorem readsLocal_leave {cells : List Value} {r : Reg} :
    m.ReadsLocal (uncommented (done ++ leaveCode cells)) r ↔
      m.ReadsLocal (uncommented done) r := by
  rw [uncommented_append, uncommented_leaveCode]
  exact lastRead_append trails_of_mem_freeCode

theorem not_readsLocal_concat {i : Instr} (hcomment : i.isComment = false)
    (hload : ∀ dst p v, i ≠ .load dst p v) (hi : i.trails = false) (r : Reg) :
    ¬m.ReadsLocal (uncommented (done ++ [i])) r := by
  rw [uncommented_append, uncommented_single hcomment]
  exact not_lastRead_concat hload hi

theorem not_readsLocal_op {op : BinOp} {dst : Reg} {p : Prim} {v w : Value} (r : Reg) :
    ¬m.ReadsLocal (uncommented (done ++ [op.instr dst p v w])) r := by
  cases op <;> exact not_readsLocal_concat rfl (by simp [BinOp.instr]) rfl r

theorem eq_reg_of_readsLocal_load {dst : Reg} {p : Prim} {w : Value} {is : List Instr} {r : Reg}
    (his : ∀ i ∈ is, i.trails = true)
    (h : m.ReadsLocal (uncommented (done ++ .load dst p w :: is)) r) :
    w = .reg r ∧ r ∈ (Holdings.after m done).live := by
  rw [List.append_cons, readsLocal_append his, uncommented_append, uncommented_single rfl,
    Module.ReadsLocal, lastRead_concat] at h
  rcases h with ⟨dst', p', hload, -, hlive⟩ | ⟨hload, -⟩
  · cases hload
    exact ⟨rfl, by rwa [Holdings.after_uncommented] at hlive⟩
  · simp [Instr.trails] at hload

theorem returnsLocal_append {is : List Instr} {r : Reg} (h : ∀ i ∈ is, i.trails = true) :
    m.ReturnsLocal (done ++ is) r ↔ m.ReturnsLocal done r := by
  rw [returnsLocal_iff_lastRead, lastRead_append h, returnsLocal_iff_lastRead]

/-- A comment is written before temporaries are released. -/
theorem eq_nil_of_returnsLocal_settle {r : Reg} (h : m.ReturnsLocal (done ++ settleCode ts) r) :
    ts = [] := by
  unfold settleCode at h
  split at h
  · rename_i hempty
    simpa using hempty
  · rw [← List.append_assoc, returnsLocal_append trails_of_mem_freeCode,
      returnsLocal_iff_lastRead] at h
    exact absurd h (not_lastRead_concat (by simp) rfl)

/-- Without its comment, the return of a local still is the read of its cell. -/
theorem readsLocal_of_returnsLocal {r : Reg} (h : m.ReturnsLocal done r) :
    m.ReadsLocal (uncommented done) r := by
  obtain ⟨pre, x, dst, p, post, rfl, hcell, hlive, hpost⟩ := h
  refine ⟨uncommented pre, dst, p, post, ?_, ⟨⟨x, List.mem_filter.2 ⟨hcell, rfl⟩⟩, ?_⟩, hpost⟩
  · rw [uncommented_append, uncommented_comment, ← List.singleton_append, uncommented_append,
      uncommented_single rfl, uncommented_of_trails hpost]
  · rwa [Holdings.after_uncommented]

/-- Between two statements: no temporaries are left, and no cell was read last. -/
structure Settled (m : Module) (params : List Ty) (sc : Scopes Value) (n : Nat)
    (done : List Instr) : Prop where
  owned : Owned m params sc [] n done
  clear : ∀ r, ¬m.ReadsLocal (uncommented done) r

/-- The temporaries `vs` that are left when the value `v` of `return e` has become the result `w`: a
pointer is a new cell, or that of a local. -/
def HandsOut (sc : Scopes Value) (e : Expr) (v w : Value) (vs : List Value) : Ty → Prop
  | .plain _ => vs = []
  | .pointer _ => (Lower.sparedBy sc e = none ∧ ∃ r, w = .reg r ∧ vs = [.reg r]) ∨
      (vs = [] ∧ w = v ∧ ∃ i x, Lower.sparedBy sc e = some (i, x))

theorem ResultCode.owned {ret : Ty} {e : Expr} {v w : Value} {us : List Value} {is : List Instr}
    (h : ResultCode sc ret e v ts n is w us n') (ho : Owned m F.signature.params sc ts n done)
    (hv : Typed.Readable F (Holdings.after m done) ⟨v, .ofTy ret⟩)
    (hcall : ∀ p, ret = .pointer p → e.isCall = true → ∃ r, v = .reg r ∧ ts = .reg r :: ts.tail) :
    ∃ vs, F.Straight m done (is ++ settleCode us) ∧
    Owned m F.signature.params sc vs n' (done ++ (is ++ settleCode us)) ∧
      HandsOut sc e v w vs ret := by
  cases h with
  | plain p =>
    obtain ⟨hstraight, howned⟩ := Owned.settle [] ho
    exact ⟨[], hstraight, howned, rfl⟩
  | call p v ts n hc =>
    obtain ⟨r, rfl, hts⟩ := hcall p rfl hc
    rw [hts] at ho
    obtain ⟨hstraight, howned⟩ := Owned.settle [.reg r] ho
    exact ⟨_, hstraight, howned, .inl ⟨sparedBy_of_isCall hc, r, rfl, rfl⟩⟩
  | spared p v ts n hc hs =>
    obtain ⟨hstraight, howned⟩ := Owned.settle [] ho
    obtain ⟨⟨i, x⟩, hs⟩ := Option.isSome_iff_exists.1 hs
    exact ⟨[], hstraight, howned, .inr ⟨rfl, rfl, i, x, hs⟩⟩
  | copy p v ts n hc hs =>
    have hacq : m.acquired? (.heapAlloc ⟨n⟩ p "result") = some ⟨n⟩ := rfl
    have halloc : F.Leaves m sc ts n done [.heapAlloc ⟨n⟩ p "result"] [.reg ⟨n⟩] (n + 1) := by
      refine ⟨.single rfl (ho.fresh le_rfl), ho.acquire le_rfl hacq, ?_⟩
      rw [Holdings.after_acquired hacq]
      exact ⟨subset_rfl, Finset.subset_insert _ _⟩
    have hread : F.Leaves m sc ([.reg ⟨n⟩] ++ ts) (n + 1) (done ++ [.heapAlloc ⟨n⟩ p "result"])
        [.load ⟨n + 1⟩ p v] []
        (n + 2) :=
      .data [⟨v, .ofTy (.pointer p)⟩] halloc.owned (by simp [Instr.isData])
        (by simp +contextual [ReadsOnly, ValTy.ofTy]) (by simpa using hv.mono halloc.le) (by omega)
    have hload := halloc.trans hread
    have hlive := (hload.owned.live ⟨n⟩).2 (.inr (by simp))
    have hstore := hload.straight.append (.single (i := .store (.reg ⟨n + 1⟩) (.reg ⟨n⟩)) rfl
      (.inl ⟨_, rfl, .inr hlive⟩))
    obtain ⟨hsettle, howned⟩ := Owned.settle [.reg ⟨n⟩]
      (hload.owned.quiet (Holdings.after_store (.reg ⟨n + 1⟩) (.reg ⟨n⟩)) le_rfl)
    refine ⟨[.reg ⟨n⟩], hstore.append (by simpa using hsettle), by simpa using howned,
      .inl ⟨?_, _, rfl, rfl⟩⟩
    simpa using hs

theorem CastCode.trails {v w : Value} {p q : Prim} {is : List Instr}
    (h : CastCode v p q n is w n') :
    ∀ i ∈ is, i.trails = true := by
  cases h <;> simp [Instr.trails]

/-- Converting plain data takes casts only. -/
theorem CoerceCode.trails {t : Typed} {q : Prim} {is : List Instr} {v : Value}
    (h : CoerceCode t (.plain q) n is v n') (ht : ∀ p, t.ty ≠ .pointer p) :
    ∀ i ∈ is, i.trails = true := by
  cases h with
  | plain hp hc =>
    refine List.forall_mem_append.2 ⟨?_, hc.trails⟩
    cases hp with
    | pointer => exact absurd rfl (ht _)
    | bool | plain => simp [Instr.trails]

theorem CoerceCode.read {w : Value} {p q : Prim} {is : List Instr} {v : Value}
    (h : CoerceCode ⟨w, .pointer p⟩ (.plain q) n is v n') :
    ∃ js, is = .load ⟨n⟩ p w :: js ∧ ∀ i ∈ js, i.trails = true := by
  cases h with
  | plain hp hc =>
    cases hp with
    | pointer => exact ⟨_, rfl, hc.trails⟩

/-- Only a plain return that reads the cell of a local, or one that a call gave, looks like one
without comments. -/
theorem spared_of_readsLocal {e : Expr} {q : Prim} {is js : List Instr} {t : Typed} {v : Value}
    {n₁ : Nat} {r : Reg}
    (text : String) (he : ExprCode Γ sc e n is t n₁ ts) (hc : CoerceCode t (.plain q) n₁ js v n')
    (hs : Settled m F.signature.params sc n done)
    (h : m.ReadsLocal (uncommented (done ++ [.comment text] ++ (is ++ js) ++ settleCode ts)) r) :
    (∃ i x l,
      Lower.sparedBy sc e = some (i, x) ∧ sc.lookup x = some (i, l) ∧ l.storage = .reg r) ∨
    (ts ≠ [] ∧ ∃ callee args, .call r callee args ∈ is) := by
  rw [readsLocal_settle, ← List.append_assoc] at h
  cases he with
  | int | double =>
    rw [readsLocal_append (hc.trails (by simp))] at h
    exact absurd (by simpa using h) (hs.clear r)
  | slot _ _ hl =>
    -- the slot of a plain variable is no live cell
    rw [List.append_assoc] at h
    obtain ⟨rfl, hlive⟩ := eq_reg_of_readsLocal_load (hc.trails (by simp)) h
    rw [Holdings.after_comment, hs.owned.live] at hlive
    exact absurd (hlive.resolve_right (by simp))
      (hs.owned.layout.slot_not_mem_releases (Scopes.mem_of_lookup hl))
  | @pointer x i w p heap _ _ hl =>
    obtain ⟨ks, rfl, hks⟩ := hc.read
    obtain ⟨rfl, -⟩ := eq_reg_of_readsLocal_load hks h
    have hplaced : (⟨.reg r, .pointer p, heap⟩ : Local Value).Placed F.signature.params n :=
      hs.owned.layout.placed _ (Scopes.mem_of_lookup hl)
    obtain rfl : heap = true := by
      cases hplaced with
      | cell => rfl
    exact .inl ⟨i, x, _, by simp [Lower.sparedBy, Expr.var?, hl], hl, rfl⟩
  | binary _ hl hr hop =>
    rw [readsLocal_append (hc.trails hop.ty_ne_pointer)] at h
    cases hop with
    | mk =>
      simp only [← List.append_assoc] at h
      exact absurd h (not_readsLocal_op r)
  | @call f args signature _ k is vs us _ hf hargs =>
    cases hret : signature.ret with
    | plain p =>
      rw [hret] at hc
      rw [readsLocal_append (hc.trails (by simp [ValTy.ofTy])), ← List.append_assoc] at h
      exact absurd h (not_readsLocal_concat rfl (by simp) rfl r)
    | pointer p =>
      rw [hret] at hc
      obtain ⟨ks, rfl, hks⟩ := hc.read
      obtain ⟨hr, -⟩ := eq_reg_of_readsLocal_load hks h
      cases hr
      exact .inr ⟨by simp [Ty.isPointer], f, vs, by simp⟩

theorem returnsLocal_of_spared {e : Expr} {q : Prim} {is js : List Instr} {t : Typed} {v : Value}
    {n₁ : Nat} {r : Reg} (pos : Nat) (he : ExprCode Γ sc e n is t n₁ ts)
    (hc : CoerceCode t (.plain q) n₁ js v n') (ho : Owned m F.signature.params sc [] n done)
    {i : Nat} {x : String} {l : Local Value} (hs : Lower.sparedBy sc e = some (i, x))
    (hl : sc.lookup x = some (i, l)) (hr : l.storage = .reg r) :
    m.ReturnsLocal (done ++ [.comment ((Stmt.ret pos e).printAt 0)] ++ (is ++ js) ++ settleCode ts)
      r := by
  obtain ⟨pos', l', rfl, hl', hheap⟩ := sparedBy_eq_some hs
  rw [hl] at hl'
  cases hl'
  have hmem := Scopes.mem_of_lookup hl
  obtain ⟨r', p, rfl⟩ := (ho.layout.placed _ hmem).heap_reg hheap
  cases hr
  have hlive := (ho.live r).2 (.inl (Scopes.mem_releases_none.2 ⟨_, hmem, rfl, rfl⟩))
  cases he with
  | slot _ _ hl' => simp [hl] at hl'
  | pointer _ _ hl' =>
    rw [hl] at hl'
    cases hl'
    obtain ⟨ks, rfl, hks⟩ := hc.read
    have hread : m.ReturnsLocal (done ++ [.comment ((Stmt.ret pos (.var pos' x)).printAt 0)] ++
        [.load ⟨n⟩ p (.reg r)]) r :=
      returnsLocal_iff_lastRead.2 (lastRead_concat.2
        (.inl ⟨_, p, rfl, done, x, rfl, ho.cells x r p hmem, hlive⟩))
    simpa [settleCode, freeCode] using (returnsLocal_append hks).2 hread

/-- Only the plain return of a local that owns a cell looks like one. -/
theorem returnsLocal_iff {e : Expr} {q : Prim} {is js : List Instr} {t : Typed} {v : Value}
    {n₁ : Nat} (pos : Nat) (he : ExprCode Γ sc e n is t n₁ ts)
    (hc : CoerceCode t (.plain q) n₁ js v n') (hs : Settled m F.signature.params sc n done)
    (r : Reg) :
    m.ReturnsLocal (done ++ [.comment ((Stmt.ret pos e).printAt 0)] ++ (is ++ js) ++ settleCode ts)
      r ↔
      ∃ i x l,
        Lower.sparedBy sc e = some (i, x) ∧ sc.lookup x = some (i, l) ∧ l.storage = .reg r := by
  constructor
  · intro hr
    have hts := eq_nil_of_returnsLocal_settle hr
    exact (spared_of_readsLocal _ he hc hs (readsLocal_of_returnsLocal hr)).resolve_right
      fun hcall => hcall.1 hts
  · rintro ⟨i, x, l, hspared, hl, hr⟩
    exact returnsLocal_of_spared pos he hc hs.owned hspared hl hr

/-- A plain return: all cells are released but for that of a returned local. -/
theorem Owned.disciplined_ret_plain {e : Expr} {q : Prim} {v : Value}
    (ho : Owned m F.signature.params sc [] n done) (hret : F.signature.ret = .plain q)
    (hlocal : ∀ r, m.ReturnsLocal done r ↔
      ∃ i x l, Lower.sparedBy sc e = some (i, x) ∧ sc.lookup x = some (i, l) ∧ l.storage = .reg r) :
    F.Disciplined m (done ++ freeCode (sc.releases (Lower.sparedBy sc e))) (.ret v) := by
  simp only [Func.Disciplined, Func.Rules, hret, returnsLocal_append trails_of_mem_freeCode, hlocal]
  constructor
  · rintro r ⟨i, x, l, hs, hl, hr⟩
    obtain ⟨_, l', -, hl', hheap⟩ := sparedBy_eq_some hs
    rw [hl] at hl'
    cases hl'
    ext r'
    rw [hs, ho.free_spared hl hheap, hr, Value.reg.injEq, Finset.mem_singleton]
  · intro hnone
    cases hs : Lower.sparedBy sc e with
    | none => exact Finset.eq_empty_of_forall_notMem fun r hr => by simpa using (ho.free_all r).1 hr
    | some spared =>
      obtain ⟨i, x⟩ := spared
      obtain ⟨_, l, -, hl, hheap⟩ := sparedBy_eq_some hs
      obtain ⟨r, p, rfl⟩ := (ho.layout.placed _ (Scopes.mem_of_lookup hl)).heap_reg hheap
      exact absurd ⟨i, x, _, hs, hl, rfl⟩ (hnone r)

/-- A returned pointer is a new cell or that of a spared local; all others are released. -/
theorem Owned.disciplined_ret_pointer {e : Expr} {p : Prim} {v : Value}
    (ho : Owned m F.signature.params sc ts n done) (hret : F.signature.ret = .pointer p)
    (hv : (Lower.sparedBy sc e = none ∧ ∃ r, v = .reg r ∧ ts = [.reg r]) ∨
      (ts = [] ∧ ∃ i x l,
        Lower.sparedBy sc e = some (i, x) ∧ sc.lookup x = some (i, l) ∧ l.storage = v)) :
    F.Disciplined m (done ++ freeCode (sc.releases (Lower.sparedBy sc e))) (.ret v) := by
  simp only [Func.Disciplined, Func.Rules, hret]
  rcases hv with ⟨hs, r, rfl, rfl⟩ | ⟨rfl, i, x, l, hs, hl, rfl⟩
  · refine ⟨r, rfl, ?_⟩
    ext r'
    rw [hs, ho.free_all, List.mem_singleton, Value.reg.injEq, Finset.mem_singleton]
  · obtain ⟨_, l', -, hl', hheap⟩ := sparedBy_eq_some hs
    rw [hl] at hl'
    cases hl'
    obtain ⟨r, p, rfl⟩ := (ho.layout.placed _ (Scopes.mem_of_lookup hl)).heap_reg hheap
    refine ⟨r, rfl, ?_⟩
    ext r'
    rw [hs, ho.free_spared hl hheap, Value.reg.injEq, Finset.mem_singleton]

theorem ReturnCode.disciplined (hF : F.Resolves m Γ) {e : Expr} {is : List Instr} {v : Value}
    (pos : Nat) (h : ReturnCode Γ F.signature.ret sc e n is v n') (hmem : ∀ i ∈ is, i ∈ F.code)
    (hs : Settled m F.signature.params sc n done) :
    F.Straight m (done ++ [.comment ((Stmt.ret pos e).printAt 0)]) is ∧
      F.Disciplined m (done ++ [.comment ((Stmt.ret pos e).printAt 0)] ++ is) (.ret v) ∧
      F.Legible m (done ++ [.comment ((Stmt.ret pos e).printAt 0)] ++ is) (.ret v) := by
  cases h with
  | @mk n₁ n₂ _ is js ks t w _ ts us he hc hr =>
    simp only [List.forall_mem_append] at hmem
    have hcomment := hs.owned.comment ((Stmt.ret pos e).printAt 0)
    set walk := done ++ [.comment ((Stmt.ret pos e).printAt 0)] with hwalk
    obtain ⟨hexpr, ht⟩ := he.leaves hF hmem.1.1.1.1 hcomment
    have hcoerce : F.Leaves m sc (ts ++ []) n₁ (walk ++ is) js [] n₂ :=
      .data [_] hexpr.owned hc.data hc.readsOnly (by simpa using ht) hc.le
    have hcode := hexpr.trans hcoerce
    have hw := hc.readable (ht.mono hcoerce.le)
    rw [List.append_assoc] at hw
    obtain ⟨vs, hstraight, howned, hvs⟩ :=
      hr.owned (by simpa using hcode.owned) hw fun p hp hcall => by
      rw [hp] at hc
      simpa [hc.eq_of_pointer] using he.eq_cons_of_isCall (p := p) hcall (by rw [hc.eq_of_pointer])
    obtain ⟨hfree, -⟩ := howned.free_scopes (Lower.sparedBy sc e)
    refine ⟨by simpa using (hcode.straight.append hstraight).append (by simpa using hfree), ?_⟩
    suffices hret : F.Disciplined m (walk ++ (is ++ js) ++ (ks ++ settleCode us) ++
          freeCode (sc.releases (Lower.sparedBy sc e))) (.ret v) ∧
        F.Legible m (walk ++ (is ++ js) ++ (ks ++ settleCode us) ++
          freeCode (sc.releases (Lower.sparedBy sc e))) (.ret v) by simpa using hret
    cases hret : F.signature.ret with
    | plain q =>
      rw [hret] at hc hr hvs
      cases hvs
      cases hr with
      | plain =>
        have hlocal := returnsLocal_iff pos he hc hs
        refine ⟨howned.disciplined_ret_plain hret hlocal, fun _ r hr => ?_⟩
        rw [readsLocal_append trails_of_mem_freeCode] at hr
        rw [returnsLocal_append trails_of_mem_freeCode]
        rcases spared_of_readsLocal _ he hc hs hr with hspared | ⟨-, callee, args, hcall⟩
        · exact .inl ((hlocal r).2 hspared)
        · exact .inr ⟨callee, args, hmem.1.1.1.1 _ hcall⟩
    | pointer p =>
      refine ⟨?_, fun hplain => by simp [hret, Ty.isPointer] at hplain⟩
      rw [hret] at hc hr hvs
      refine howned.disciplined_ret_pointer hret (hvs.imp_right ?_)
      rintro ⟨rfl, rfl, i, x, hspared⟩
      obtain ⟨_, l, rfl, hl, -⟩ := sparedBy_eq_some hspared
      cases hc.eq_of_pointer
      exact ⟨rfl, i, x, l, hspared, hl, he.storage_eq hl⟩

namespace Settled

theorem comment (h : Settled m F.signature.params sc n done) (text : String) :
    Settled m F.signature.params sc n (done ++ [.comment text]) :=
  ⟨h.owned.comment text, by simpa using h.clear⟩

theorem branch (h : Settled m F.signature.params sc n done) (l : String) :
    Settled m F.signature.params sc n (done ++ [.branch l]) :=
  ⟨h.owned.quiet (by simp [Holdings.after_append, Holdings.step, Module.acquired?]) le_rfl,
    not_readsLocal_concat rfl (by simp) rfl⟩

theorem condBranch (h : Owned m F.signature.params sc [] n done) (v : Value) (l l' : String) :
    Settled m F.signature.params sc n (done ++ [.condBranch v l l']) :=
  ⟨h.quiet (by simp [Holdings.after_append, Holdings.step, Module.acquired?]) le_rfl,
    not_readsLocal_concat rfl (by simp) rfl⟩

theorem mono (h : Settled m F.signature.params sc n done) (hn : n ≤ n') :
    Settled m F.signature.params sc n' done :=
  ⟨by simpa using h.owned.quiet (show Holdings.after m (done ++ []) = _ by simp) hn, h.clear⟩

/-- Registers that only a loop's earlier rounds used are free again. -/
theorem rewind (h : Settled m F.signature.params sc n' done) (hl : Layout F.signature.params sc n) :
    Settled m F.signature.params sc n done :=
  ⟨⟨hl, h.owned.live, by simp, by simp, h.owned.slots, h.owned.cells⟩, h.clear⟩

theorem enter (h : Settled m F.signature.params sc n done) :
    Settled m F.signature.params ([] :: sc) n done :=
  ⟨⟨h.owned.layout.push, h.owned.live, by simp, by simp, h.owned.slots, h.owned.cells⟩, h.clear⟩

theorem leave {f : Frame Value} (h : Settled m F.signature.params (f :: sc) n done) :
    F.Straight m done (leaveCode f.handles) ∧
    Settled m F.signature.params sc n (done ++ leaveCode f.handles) := by
  obtain ⟨hstraight, howned⟩ := h.owned.leave
  exact ⟨hstraight, howned, fun r hr => h.clear r (readsLocal_leave.1 hr)⟩

end Settled

theorem DeclareCode.settled {ty : Ty} {sc' : Scopes Value} {xs : List String} {is : List Instr}
    (h : DeclareCode ty sc xs n is sc' n') (hs : Settled m F.signature.params sc n done) :
    F.Straight m done is ∧ Settled m F.signature.params sc' n' (done ++ is) := by
  induction h generalizing done with
  | nil => exact ⟨trivial, by simpa using hs⟩
  | @cons frame sc sc' x xs n n' is hx _ ih =>
    obtain ⟨hstraight, howned⟩ := hs.owned.declare ty hx
    obtain ⟨hrest, hend⟩ :=
      ih ⟨howned, by cases ty <;> exact not_readsLocal_concat rfl (by simp [Ty.allocInstr]) rfl⟩
    exact ⟨hstraight.append hrest, by simpa using hend⟩

theorem AssignCode.not_readsLocal {x : String} {e : Expr} {is : List Instr}
    (h : AssignCode Γ sc x e n is n') (r : Reg) : ¬m.ReadsLocal (uncommented (done ++ is)) r := by
  cases h with
  | mk =>
    rw [← List.append_assoc, readsLocal_settle, ← List.append_assoc]
    exact not_readsLocal_concat rfl (by simp) rfl r

theorem safe_branch {N : Nat} {l : String} {B : BasicBlock} {k : List Instr}
    (hB : F.block? l = some B) (h : ∀ N' < N, F.Safe m N' (done ++ [.branch l]) B.code) :
    F.Safe m N done (.branch l :: k) := by
  cases N with
  | zero => trivial
  | succ N =>
    refine ⟨⟨trivial, trivial⟩, fun todo hnext => ?_⟩
    cases hnext with
    | step ht => simp [Instr.isTerminator] at ht
    | branch hB' =>
      rw [hB] at hB'
      cases hB'
      exact h N (Nat.lt_succ_self N)

theorem safe_condBranch {N : Nat} {v : Value} {l l' : String} {B B' : BasicBlock} {k : List Instr}
    (hB : F.block? l = some B) (hB' : F.block? l' = some B')
    (h : ∀ N' < N, F.Safe m N' (done ++ [.condBranch v l l']) B.code)
    (h' : ∀ N' < N, F.Safe m N' (done ++ [.condBranch v l l']) B'.code) :
    F.Safe m N done (.condBranch v l l' :: k) := by
  cases N with
  | zero => trivial
  | succ N =>
    refine ⟨⟨trivial, trivial⟩, fun todo hnext => ?_⟩
    cases hnext with
    | step ht => simp [Instr.isTerminator] at ht
    | yes hyes =>
      rw [hB] at hyes
      cases hyes
      exact h N (Nat.lt_succ_self N)
    | no hno =>
      rw [hB'] at hno
      cases hno
      exact h' N (Nat.lt_succ_self N)

/-- Nothing follows the end of a function. -/
theorem safe_end {N : Nat} {i : Instr} {k : List Instr} (hi : i = .unreachable ∨ ∃ v, i = .ret v)
    (h : F.Disciplined m done i ∧ F.Legible m done i) : F.Safe m N done (i :: k) := by
  cases N with
  | zero => trivial
  | succ N =>
    refine ⟨h, fun todo hnext => ?_⟩
    cases hnext with
    | step ht => rcases hi with rfl | ⟨v, rfl⟩ <;> simp [Instr.isTerminator] at ht
    | branch | yes | no => simp at hi

theorem mem_code_of_block? {l : String} {B : BasicBlock} (hB : F.block? l = some B) :
    ∀ i ∈ B.code, i ∈ F.code :=
  fun _ hi => List.mem_flatMap.2 ⟨B, List.mem_of_find?_eq_some hB, hi⟩

/-- What is safe behind some code, if control gets there. -/
def Func.SafeAfter (F : Func) (m : Module) (N : Nat) (sc : Scopes Value) (n : Nat)
    (r : Option (List Instr)) : Prop :=
  ∀ k, r = some k → (∀ i ∈ k, i ∈ F.code) →
    ∀ N' ≤ N, ∀ done, Settled m F.signature.params sc n done → F.Safe m N' done k

theorem Func.SafeAfter.mono {N N' : Nat} {r : Option (List Instr)} (h : F.SafeAfter m N sc n r)
    (hN : N' ≤ N) :
    F.SafeAfter m N' sc n r :=
  fun k hk hmem M hM => h k hk hmem M (hM.trans hN)

/-- Control that reaches the end of an arm goes on with the block behind. -/
theorem safeAfter_join {N : Nat} {l : String} {B : BasicBlock} {r : Option (List Instr)}
    (hr : JoinsAt l r) (hB : F.block? l = some B)
    (h : ∀ N' < N, ∀ done, Settled m F.signature.params sc n done → F.Safe m N' done B.code) :
    F.SafeAfter m N sc n r := by
  intro k hk _ N' hN' done hs
  obtain ⟨k', rfl⟩ := hr k hk
  exact safe_branch hB fun M hM => h M (by omega) _ (hs.branch l)

mutual

theorem StmtCode.safe (hF : F.Resolves m Γ) :
    ∀ {sc s n k sc' n' r}, StmtCode Γ F.signature.ret F sc s n k sc' n' r → (∀ i ∈ k, i ∈ F.code) →
    ∀ {N done},
      Settled m F.signature.params sc n done → F.SafeAfter m N sc' n' r → F.Safe m N done k
  | _, _, _, _, _, _, _, .declaration pos hd, hmem, N, done, hs, hk => by
    rw [List.forall_mem_cons, List.forall_mem_append] at hmem
    obtain ⟨hstraight, hend⟩ := hd.settled (hs.comment _)
    have hcode := (Owned.straight_comment F m done _).append hstraight
    exact hcode.safe fun N' hN' => hk _ rfl hmem.2.2 N' hN' _ (by simpa using hend)
  | _, _, _, _, _, _, _, .assignment pos ha, hmem, N, done, hs, hk => by
    rw [List.forall_mem_cons, List.forall_mem_append] at hmem
    obtain ⟨hstraight, hend⟩ := ha.owned hF hmem.2.1 (hs.owned.comment _)
    have hcode := (Owned.straight_comment F m done _).append hstraight
    refine hcode.safe fun N' hN' => hk _ rfl hmem.2.2 N' hN' _ ?_
    simpa using (⟨hend, fun r => ha.not_readsLocal r⟩ : Settled m F.signature.params _ _ _)
  | _, _, _, _, _, _, _, .ret pos hr, hmem, N, done, hs, _ => by
    rw [List.forall_mem_cons, List.forall_mem_append] at hmem
    obtain ⟨hstraight, hret⟩ := hr.disciplined hF pos hmem.2.1 hs
    have hcode := (Owned.straight_comment F m done _).append hstraight
    exact hcode.safe fun N' hN' => safe_end (.inr ⟨_, rfl⟩) (by simpa using hret)
  | _, _, _, _, _, _, _, .ifElse pos ht hBy hBn hBa hyes hjy hno hjn, hmem, N, done, hs, hk => by
    rw [List.forall_mem_cons, List.forall_mem_append] at hmem
    obtain ⟨hstraight, htest⟩ := ht.owned hF hmem.2.1 (hs.owned.comment _)
    have hcode := (Owned.straight_comment F m done _).append hstraight
    have hjoin : ∀ N' ≤ N, ∀ done', Settled m F.signature.params _ _ done' → F.Safe m N' done' _ :=
      hk _ rfl (mem_code_of_block? hBa)
    refine hcode.safe fun N₁ hN₁ => safe_condBranch hBy hBn (fun N₂ hN₂ => ?_) fun N₂ hN₂ => ?_
    · refine hyes.safe hF (mem_code_of_block? hBy) (.condBranch (by simpa using htest) ..) ?_
      exact safeAfter_join hjy hBa fun N₃ hN₃ done' hs' =>
        hjoin N₃ (by omega) done' (hs'.mono hno.le)
    · refine hno.safe hF (mem_code_of_block? hBn)
        ((Settled.condBranch (by simpa using htest) ..).mono hyes.le) ?_
      exact safeAfter_join hjn hBa fun N₃ hN₃ done' hs' => hjoin N₃ (by omega) done' hs'
  | sc, _, n, _, _, _, _,
      @StmtCode.loop _ _ _ _ _ _ _ _ _ _ _ _ _ _ _ _ Bc _ _ _ _ hBc hBb hBa ht hcode hbody hj,
    hmem, N, done, hs, hk => by
    -- every round begins at the condition with the same holdings, and takes at least one step
    have hround :
        ∀ N' ≤ N, ∀ done', Settled m F.signature.params sc n done' → F.Safe m N' done' Bc.code := by
      intro N'
      induction N' using Nat.strong_induction_on with
      | h N' ih =>
        intro hN' done' hs'
        have hmemc := mem_code_of_block? hBc
        rw [hcode, List.forall_mem_append] at hmemc
        obtain ⟨hstraight, htest⟩ := ht.owned hF hmemc.1 hs'.owned
        rw [hcode]
        refine hstraight.safe fun N₁ hN₁ => safe_condBranch hBb hBa (fun N₂ hN₂ => ?_) fun N₂ hN₂ =>
          ?_
        · refine hbody.safe hF (mem_code_of_block? hBb) (.condBranch htest ..) ?_
          refine safeAfter_join hj hBc fun N₃ hN₃ done'' hs'' => ?_
          exact ih N₃ (by omega) (by omega) done'' (hs''.rewind hs.owned.layout)
        · refine hk _ rfl (mem_code_of_block? hBa) N₂ (by omega) _ ?_
          exact (Settled.condBranch htest ..).mono hbody.le
    refine (Owned.straight_comment F m done _).safe fun N₁ hN₁ => safe_branch hBc fun N₂ hN₂ => ?_
    exact hround N₂ (by omega) _ ((hs.comment _).branch _)
  | _, _, _, _, _, _, _, .block hb, hmem, N, done, hs, hk => hb.safe hF hmem hs hk

theorem BlockCode.safe (hF : F.Resolves m Γ) :
    ∀ {sc b n k n' r}, BlockCode Γ F.signature.ret F sc b n k n' r → (∀ i ∈ k, i ∈ F.code) →
    ∀ {N done}, Settled m F.signature.params sc n done → F.SafeAfter m N sc n' r → F.Safe m N done k
  | _, _, _, _, _, _, .closed pos hl, hmem, N, done, hs, _ =>
    hl.safe hF hmem hs.enter fun k hk => by cases hk
  | _, _, _, _, _, _, .left pos hl, hmem, N, done, hs, hk => by
    refine hl.safe hF hmem hs.enter fun k hk' hmem' N' hN' done' hs' => ?_
    cases hk'
    obtain ⟨hstraight, hend⟩ := hs'.leave
    exact hstraight.safe fun M hM =>
      hk _ rfl (List.forall_mem_append.1 hmem').2 M (hM.trans hN') _ hend

theorem ListCode.safe (hF : F.Resolves m Γ) :
    ∀ {sc ss n k sc' n' r},
      ListCode Γ F.signature.ret F sc ss n k sc' n' r → (∀ i ∈ k, i ∈ F.code) →
    ∀ {N done},
      Settled m F.signature.params sc n done → F.SafeAfter m N sc' n' r → F.Safe m N done k
  | _, _, _, _, _, _, _, .nil .., hmem, N, done, hs, hk => hk _ rfl hmem N le_rfl _ hs
  | _, _, _, _, _, _, _, .cons hstmt hlist, hmem, N, done, hs, hk =>
    hstmt.safe hF hmem hs fun _ hk' hmem' _ hN' _ hs' => by
      cases hk'
      exact hlist.safe hF hmem' hs' (hk.mono hN')
  | _, _, _, _, _, _, _, .closed _ hstmt, hmem, N, done, hs, _ =>
    hstmt.safe hF hmem hs fun k hk => by cases hk

end

theorem Settled.bindPointer {f : Frame Value} {x : String} {p : Prim} {i : Nat}
    (h : Settled m F.signature.params (f :: sc) n done) (hx : f.find? x = none)
    (hi : F.signature.params[i]? = some (.pointer p)) :
    Settled m F.signature.params (((x, ⟨paramValue i, .pointer p, false⟩) :: f) :: sc) n done := by
  have hreleases : Scopes.releases none (((x, ⟨paramValue i, .pointer p, false⟩) :: f) :: sc) =
      Scopes.releases none (f :: sc) := by
    simp [Scopes.releases]
  refine ⟨⟨h.owned.layout.declare hx le_rfl (.param hi) (by simp [paramValue]), fun r => ?_,
    by simp, by simp, ?_, ?_⟩, h.clear⟩
  · rw [hreleases]
    exact h.owned.live r
  · rintro x' r q heap (_ | ⟨_, hd⟩)
    exact h.owned.slots x' r q heap hd
  · rintro x' r q (_ | ⟨_, hd⟩)
    exact h.owned.cells x' r q hd

theorem Settled.bindPlain {f : Frame Value} {x : String} {p : Prim} (v : Value)
    (h : Settled m F.signature.params (f :: sc) n done) (hx : f.find? x = none) :
    F.Straight m done [.stackAlloc ⟨n⟩ p x, .store v (.reg ⟨n⟩)] ∧
      Settled m F.signature.params (((x, ⟨.reg ⟨n⟩, .plain p, false⟩) :: f) :: sc) (n + 1)
        (done ++ [.stackAlloc ⟨n⟩ p x, .store v (.reg ⟨n⟩)]) := by
  obtain ⟨hstraight, howned⟩ := h.owned.declare (.plain p) hx
  have hslot : F.Address _ (.reg ⟨n⟩) := howned.address (List.mem_append_left _ List.mem_cons_self)
  have hend := howned.quiet (Holdings.after_store v (.reg ⟨n⟩)) le_rfl
  rw [List.append_assoc] at hend
  refine ⟨hstraight.append (.single rfl hslot), hend, ?_⟩
  rw [← List.singleton_append, ← List.append_assoc]
  exact not_readsLocal_concat rfl (by simp) rfl

theorem ParamsCode.settled {i : Nat} {sc' : Scopes Value} {ps : List Param} {is : List Instr}
    (h : ParamsCode i sc ps n is sc' n') (hps : F.signature.params.drop i = ps.map Param.ty)
    (hs : Settled m F.signature.params sc n done) :
    F.Straight m done is ∧ Settled m F.signature.params sc' n' (done ++ is) := by
  induction h generalizing done with
  | nil => exact ⟨trivial, by simpa using hs⟩
  | plain hx _ ih =>
    obtain ⟨hstraight, hend⟩ := hs.bindPlain (paramValue _) hx
    obtain ⟨hrest, hfinal⟩ := ih (by simpa using congrArg List.tail hps) hend
    exact ⟨hstraight.append hrest, by simpa using hfinal⟩
  | pointer hx _ ih =>
    refine ih (by simpa using congrArg List.tail hps) (hs.bindPointer hx ?_)
    simpa using congrArg List.head? hps

/-- The end of a body that control falls off. -/
theorem Settled.disciplined_fall {f : Frame Value} (h : Settled m F.signature.params [f] n done) :
    F.Straight m done (freeCode f.handles) ∧
    F.Disciplined m (done ++ freeCode f.handles) F.signature.ret.fallInstr ∧
    F.Legible m (done ++ freeCode f.handles) F.signature.ret.fallInstr := by
  obtain ⟨hstraight, howned⟩ := h.owned.free_frame
  have hempty : (Holdings.after m (done ++ freeCode f.handles)).live = ∅ :=
    Finset.eq_empty_of_forall_notMem fun r hr => by
      simpa [Scopes.releases] using (howned.live r).1 hr
  refine ⟨hstraight, ?_⟩
  cases hret : F.signature.ret with
  | pointer p => exact ⟨hempty, trivial⟩
  | plain p =>
    have hclear : ∀ r, ¬m.ReadsLocal (uncommented (done ++ freeCode f.handles)) r := fun r hr =>
      h.clear r ((readsLocal_append trails_of_mem_freeCode).1 hr)
    refine ⟨?_, fun _ r hr => absurd hr (hclear r)⟩
    simp only [Ty.fallInstr, Func.Disciplined, Func.Rules, hret]
    exact ⟨fun r hr => absurd (readsLocal_of_returnsLocal hr) (hclear r), fun _ => hempty⟩

theorem DefinitionCode.safe (hF : F.Resolves m Γ) {d : Definition} {is : List Instr}
    (h : DefinitionCode Γ F d 0 is) (hd : d.prototype.signature = F.signature)
    (hmem : ∀ i ∈ is, i ∈ F.code) (N : Nat) : F.Safe m N [] is := by
  have hret : d.prototype.ret = F.signature.ret := by rw [← hd]; rfl
  cases h with
  | mk hparams hlist hfall =>
    rw [List.forall_mem_cons, List.forall_mem_append] at hmem
    rw [hret] at hlist hfall
    have hstart : Settled m F.signature.params [[]] 0 [] :=
      ⟨⟨.empty _ 0, by simp [Holdings.after, Scopes.releases], by simp, by simp, by simp, by simp⟩,
        by
        rintro r ⟨pre, dst, p, post, hdone, -⟩
        simp at hdone⟩
    obtain ⟨hstraight, hbody⟩ := hparams.settled (F := F) (by rw [← hd]; rfl) (hstart.comment _)
    have hcode := (Owned.straight_comment F m [] _).append hstraight
    refine hcode.safe fun N₁ hN₁ => hlist.safe hF hmem.2.2 (by simpa using hbody) ?_
    intro k hk _ N₂ hN₂ done hs
    obtain ⟨k', rfl⟩ := hfall k hk
    obtain ⟨hfree, hend⟩ := hs.disciplined_fall
    refine hfree.safe fun N₃ hN₃ => safe_end ?_ hend
    cases F.signature.ret <;> simp [Ty.fallInstr]

theorem compile_safe (source : String) {F : Func}
    (hF : F ∈ (compile source Recorder.empty).2.toModule.functions) {done todo : List Instr}
    {i : Instr} (hwalk : F.Walk done (i :: todo)) :
    F.Disciplined (compile source Recorder.empty).2.toModule done i ∧
      F.Legible (compile source Recorder.empty).2.toModule done i := by
  refine (safe_of_walk hwalk (fun B n hB => ?_) 1).1
  obtain ⟨rest, hblocks⟩ := List.head?_eq_some_iff.1 hB
  obtain ⟨d, Γ, hd, hcode, hresolves⟩ := compile_defines source hF (by simp [hblocks])
  have hentry : F.codeAt 0 = B.code := by simp [Func.codeAt, hblocks]
  rw [hentry] at hcode
  exact hcode.safe hresolves hd (fun i hi => by simp [Func.code, hblocks, hi]) n

/-- On every walk through a function of a compiled module, each instruction keeps the rules for the
heap. -/
theorem heap_discipline (source : String) {F : Func}
    (hF : F ∈ (compile source Recorder.empty).2.toModule.functions) {done todo : List Instr}
    {i : Instr} (hwalk : F.Walk done (i :: todo)) :
    F.Disciplined (compile source Recorder.empty).2.toModule done i :=
  (compile_safe source hF hwalk).1

/-- A function that returns, from inside a loop, a local that owns a cell as plain data. -/
def Func.returnedLocal : Func where
  name := "f"
  signature := ⟨[.pointer .int], .plain .int⟩
  blocks :=
    [⟨"entry", [.comment "function int f(Int c)", .comment "Int p;", .heapAlloc ⟨0⟩ .int "p",
      .comment "while (c)",
      .branch "while"]⟩,
    ⟨"while", [.load ⟨1⟩ .int (.arg 0), .compare ⟨2⟩ .ne .int (.reg ⟨1⟩) (.int 0),
      .condBranch (.reg ⟨2⟩) "loop" "cont"]⟩,
    ⟨"loop", [.comment "return p;", .load ⟨3⟩ .int (.reg ⟨0⟩), .ret (.reg ⟨3⟩)]⟩,
    ⟨"cont", [.comment "return 0;", .heapFree (.reg ⟨0⟩), .ret (.int 0)]⟩]
  registers := 4

theorem heap_discipline_returnedLocal :
    let m := (compile "int f(Int c) \x7b Int p; while (c) \x7b return p; \x7d return 0; \x7d"
      Recorder.empty).2.toModule
    Func.returnedLocal ∈ m.functions ∧ ∃ done, Func.returnedLocal.Walk done [.ret (.reg ⟨3⟩)] ∧
      Func.returnedLocal.Disciplined m done (.ret (.reg ⟨3⟩)) := by
  intro m
  have hmem : Func.returnedLocal ∈ m.functions := by decide +kernel
  have hentry : Func.returnedLocal.Walk [] _ := .entry rfl
  have hloop := ((((hentry.next (.step rfl)).next (.step rfl)).next (.step rfl)).next (.step
    rfl)).next (.branch rfl)
  have hbody := ((hloop.next (.step rfl)).next (.step rfl)).next (.yes rfl)
  have hret := (hbody.next (.step rfl)).next (.step rfl)
  exact ⟨hmem, _, hret, heap_discipline _ hmem hret⟩

end ImpFront
