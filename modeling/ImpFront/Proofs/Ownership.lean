import Mathlib
import ImpFront.Proofs.Heap
import ImpFront.Proofs.Scopes

/-! Who owns which heap cell while a body runs. The cells that a walk owns are those of the
declarations in scope and the temporaries of the current statement, each once. The code of every
tree keeps this, with the scopes that stand behind it. -/

namespace ImpFront

/-- What a declared name may stand for where `n` registers are in use. -/
inductive Local.Placed (params : List Ty) (n : Nat) : Local Value → Prop
  | slot {r : Reg} {p : Prim} : r.index < n → Local.Placed params n ⟨.reg r, .plain p, false⟩
  | cell {r : Reg} {p : Prim} : r.index < n → Local.Placed params n ⟨.reg r, .pointer p, true⟩
  | param {index : Nat} {p : Prim} : params[index]? = some (.pointer p) →
      Local.Placed params n ⟨paramValue index, .pointer p, false⟩

theorem Local.Placed.mono {params : List Ty} {n n' : Nat} {l : Local Value} (h : l.Placed params n)
    (hn : n ≤ n') :
    l.Placed params n' := by
  cases h with
  | slot hr => exact .slot (by omega)
  | cell hr => exact .cell (by omega)
  | param hp => exact .param hp

theorem Local.Placed.index_lt {params : List Ty} {n : Nat} {l : Local Value} {r : Reg}
    (h : l.Placed params n) (hr : l.storage = .reg r) : r.index < n := by
  cases h with
  | slot hlt | cell hlt =>
    cases hr
    exact hlt
  | param _ => simp [paramValue] at hr

theorem Local.Placed.heap_reg {params : List Ty} {n : Nat} {l : Local Value} (h : l.Placed params n)
    (hheap : l.heap = true) : ∃ r p, l = ⟨.reg r, .pointer p, true⟩ := by
  cases h with
  | cell _ => exact ⟨_, _, rfl⟩
  | slot _ | param _ => simp at hheap

/-- The two do not stand for one register. -/
def Local.Apart (l l' : Local Value) : Prop := ∀ r, l.storage = .reg r → l'.storage ≠ .reg r

/-- Scopes as lowering builds them: names differ within a frame, and no register stands for two of
them. -/
structure Layout (params : List Ty) (sc : Scopes Value) (n : Nat) : Prop where
  names : ∀ f ∈ sc, (f.map Prod.fst).Nodup
  placed : ∀ d ∈ sc.flatten, d.2.Placed params n
  distinct : sc.flatten.Pairwise fun d d' => d.2.Apart d'.2

namespace Layout

variable {params : List Ty} {sc : Scopes Value} {f : Frame Value} {n n' : Nat}

theorem empty (params : List Ty) (n : Nat) : Layout params [[]] n := ⟨by simp, by simp, by simp⟩

theorem mono (h : Layout params sc n) (hn : n ≤ n') : Layout params sc n' :=
  ⟨h.names, fun d hd => (h.placed d hd).mono hn, h.distinct⟩

theorem push (h : Layout params sc n) : Layout params ([] :: sc) n :=
  ⟨List.forall_mem_cons.2 ⟨List.nodup_nil, h.names⟩, h.placed, h.distinct⟩

theorem pop (h : Layout params (f :: sc) n) : Layout params sc n where
  names := (List.forall_mem_cons.1 h.names).2
  placed d hd := h.placed d (List.mem_append_right f hd)
  distinct := (List.pairwise_append.1 h.distinct).2.1

/-- A declaration, whose register is new if it stands for one. -/
theorem declare (h : Layout params (f :: sc) n) {x : String} {l : Local Value}
    (hx : Frame.find? f x = none) (hn : n ≤ n') (hl : l.Placed params n')
    (hnew : ∀ r, l.storage = .reg r → n ≤ r.index) :
    Layout params (((x, l) :: f) :: sc) n' where
  names := by
    have hnot : x ∉ f.map Prod.fst := by
      intro hm
      obtain ⟨d, hd, rfl⟩ := List.mem_map.1 hm
      simp only [Frame.find?, Option.map_eq_none_iff, List.find?_eq_none] at hx
      simpa using hx d hd
    refine List.forall_mem_cons.2 ⟨List.nodup_cons.2 ⟨hnot, (List.forall_mem_cons.1 h.names).1⟩, ?_⟩
    exact (List.forall_mem_cons.1 h.names).2
  placed := List.forall_mem_cons.2 ⟨hl, fun d hd => (h.placed d hd).mono hn⟩
  distinct := by
    refine List.pairwise_cons.2 ⟨fun d hd r hr he => ?_, h.distinct⟩
    have hle := hnew r hr
    have hlt := (h.placed d hd).index_lt he
    omega

/-- The cells that the frames own, each once. -/
theorem nodup_releases (h : Layout params sc n) : (sc.releases none).Nodup := by
  have heq : sc.releases none = (sc.flatten.filter fun d => d.2.heap).map fun d => d.2.storage := by
    rw [Scopes.releases_none]
    induction sc with
    | nil => rfl
    | cons f fs ih => simp [Frame.handles, ih h.pop]
  rw [heq, List.Nodup, List.pairwise_map]
  refine (h.distinct.filter _).imp_of_mem fun {d d'} hd _ hne he => ?_
  obtain ⟨hmem, hheap⟩ := List.mem_filter.1 hd
  obtain ⟨r, p, hl⟩ := (h.placed d hmem).heap_reg hheap
  exact hne r (by rw [hl]) (by rw [← he, hl])

theorem reg_of_mem_releases (h : Layout params sc n) {v : Value} (hv : v ∈ sc.releases none) :
    ∃ r, v = .reg r ∧ r.index < n := by
  obtain ⟨d, hd, hheap, rfl⟩ := Scopes.mem_releases_none.1 hv
  obtain ⟨r, p, hl⟩ := (h.placed d hd).heap_reg hheap
  exact ⟨r, by rw [hl], (h.placed d hd).index_lt (by rw [hl])⟩

/-- The slot of a plain variable is no cell. -/
theorem slot_not_mem_releases (h : Layout params sc n) {x : String} {r : Reg} {p : Prim}
    {heap : Bool} (hd : (x, ⟨.reg r, .plain p, heap⟩) ∈ sc.flatten) :
    .reg r ∉ sc.releases none := by
  intro hv
  obtain ⟨d, hd', hheap, hr⟩ := Scopes.mem_releases_none.1 hv
  obtain ⟨r', p', hl⟩ := (h.placed d hd').heap_reg hheap
  have hsymm : Std.Symm fun d d' : String × Local Value => d.2.Apart d'.2 :=
    ⟨fun _ _ hab r hb ha => hab r ha hb⟩
  have hapart := h.distinct.forall hd hd' (by rintro rfl; simp at hl)
  exact hapart r rfl hr

end Layout

/-- Behind a walk, the function owns the cells of the scopes and the temporaries and nothing
else. -/
structure Owned (m : Module) (params : List Ty) (sc : Scopes Value) (ts : List Value) (n : Nat)
    (done : List Instr) :
    Prop where
  layout : Layout params sc n
  live : ∀ r, r ∈ (Holdings.after m done).live ↔ .reg r ∈ sc.releases none ∨ .reg r ∈ ts
  temporaries : ∀ v ∈ ts, (∃ r, v = .reg r ∧ r.index < n) ∧ v ∉ sc.releases none
  nodup : ts.Nodup
  slots : ∀ x r p heap,
    (x, ⟨.reg r, .plain p, heap⟩) ∈ sc.flatten → r ∈ (Holdings.after m done).slots
  cells : ∀ x r p, (x, ⟨.reg r, .pointer p, true⟩) ∈ sc.flatten → .heapAlloc r p x ∈ done

namespace Owned

variable {F : Func} {m : Module} {sc : Scopes Value} {ts : List Value} {n n' : Nat}
  {done : List Instr}

/-- A register that is not in use yet is no owned cell. -/
theorem fresh (h : Owned m F.signature.params sc ts n done) (hn : n ≤ n') :
    ⟨n'⟩ ∉ (Holdings.after m done).live := by
  rw [h.live]
  rintro (hr | hr)
  · obtain ⟨r, he, hlt⟩ := h.layout.reg_of_mem_releases hr
    cases he
    exact absurd hlt (by simpa using hn)
  · obtain ⟨⟨r, he, hlt⟩, -⟩ := h.temporaries _ hr
    cases he
    exact absurd hlt (by simpa using hn)

/-- Code that neither allocates nor releases. -/
theorem quiet (h : Owned m F.signature.params sc ts n done) {is : List Instr}
    (hsame : Holdings.after m (done ++ is) = Holdings.after m done) (hn : n ≤ n') :
    Owned m F.signature.params sc ts n' (done ++ is) where
  layout := h.layout.mono hn
  live := by rw [hsame]; exact h.live
  temporaries v hv := by
    obtain ⟨⟨r, hr, hlt⟩, hnot⟩ := h.temporaries v hv
    exact ⟨⟨r, hr, by omega⟩, hnot⟩
  nodup := h.nodup
  slots := by rw [hsame]; exact h.slots
  cells x r p hd := List.mem_append_left _ (h.cells x r p hd)

/-- Whatever a variable stands for can be accessed. -/
theorem address (h : Owned m F.signature.params sc ts n done) {x : String} {l : Local Value}
    (hd : (x, l) ∈ sc.flatten) :
    F.Address (Holdings.after m done) l.storage := by
  have hplaced : l.Placed F.signature.params n := h.layout.placed _ hd
  cases hplaced with
  | slot => exact .inl ⟨_, rfl, .inl (h.slots _ _ _ _ hd)⟩
  | cell =>
    refine .inl ⟨_, rfl, .inr ((h.live _).2 (.inl ?_))⟩
    exact Scopes.mem_releases_none.2 ⟨_, hd, rfl, rfl⟩
  | param hp => exact .inr ⟨_, _, hp, rfl⟩

/-- A cell that comes in is a temporary. -/
theorem acquire (h : Owned m F.signature.params sc ts n done) {i : Instr} (hn : n ≤ n')
    (hi : m.acquired? i = some ⟨n'⟩) :
    Owned m F.signature.params sc (.reg ⟨n'⟩ :: ts) (n' + 1) (done ++ [i]) where
  layout := h.layout.mono (by omega)
  live r := by
    rw [Holdings.after_acquired hi, Finset.mem_insert, h.live, List.mem_cons, Value.reg.injEq]
    exact or_left_comm
  temporaries := by
    have hnot := h.fresh hn
    rw [h.live] at hnot
    refine List.forall_mem_cons.2 ⟨⟨⟨_, rfl, by simp⟩, fun hr => hnot (.inl hr)⟩, fun v hv => ?_⟩
    obtain ⟨⟨r, hr, hlt⟩, hv⟩ := h.temporaries v hv
    exact ⟨⟨r, hr, by omega⟩, hv⟩
  nodup := by
    have hnot := h.fresh hn
    rw [h.live] at hnot
    exact List.nodup_cons.2 ⟨fun hr => hnot (.inr hr), h.nodup⟩
  slots := by rw [Holdings.after_acquired hi]; exact h.slots
  cells x r p hd := List.mem_append_left _ (h.cells x r p hd)

end Owned

/-- Releasing cells, each once. -/
theorem straight_free {F : Func} {m : Module} (done : List Instr) (vs : List Value)
    (hnodup : vs.Nodup) (hlive : ∀ v ∈ vs, ∃ r ∈ (Holdings.after m done).live, v = .reg r) :
    F.Straight m done (freeCode vs) ∧
      (Holdings.after m (done ++ freeCode vs)).slots = (Holdings.after m done).slots ∧
      ∀ r, r ∈ (Holdings.after m (done ++ freeCode vs)).live ↔ r ∈ (Holdings.after m done).live ∧
      .reg r ∉ vs := by
  induction vs generalizing done with
  | nil => simp [freeCode, Func.Straight]
  | cons v vs ih =>
    obtain ⟨⟨r, hr, rfl⟩, hrest⟩ := List.forall_mem_cons.1 hlive
    obtain ⟨hnot, hnodup⟩ := List.nodup_cons.1 hnodup
    have hafter := Holdings.after_free m done r
    obtain ⟨hstraight, hslots, hiff⟩ := ih (done ++ [.heapFree (.reg r)]) hnodup fun v hv => by
      obtain ⟨r', hr', rfl⟩ := hrest v hv
      refine ⟨r', ?_, rfl⟩
      rw [hafter]
      refine Finset.mem_erase.2 ⟨?_, hr'⟩
      rintro rfl
      exact hnot hv
    have hcons : freeCode (.reg r :: vs) = .heapFree (.reg r) :: freeCode vs := rfl
    rw [hcons, List.append_cons]
    refine ⟨⟨⟨rfl, r, hr, rfl⟩, hstraight⟩, by rw [hslots, hafter], fun r' => ?_⟩
    rw [hiff, hafter, Finset.mem_erase, List.mem_cons, Value.reg.injEq]
    tauto

/-- A pointer that can be accessed, or plain data. -/
def Typed.Readable (F : Func) (h : Holdings) (t : Typed) : Prop :=
  ∀ p, t.ty = .pointer p → F.Address h t.value

theorem Typed.Readable.mono {F : Func} {h h' : Holdings} {t : Typed} (ht : t.Readable F h)
    (hle : h.Le h') :
    t.Readable F h' :=
  fun p hp => (ht p hp).mono hle

/-- The code reads nothing but what one of the values points to. -/
def ReadsOnly (is : List Instr) (ts : List Typed) : Prop :=
  ∀ dst p v, .load dst p v ∈ is → ∃ t ∈ ts, t.ty = .pointer p ∧ t.value = v

theorem PlainCode.readsOnly {t : Typed} {n n' : Nat} {is : List Instr} {v : Value} {p : Prim}
    (h : PlainCode t n is v p n') : ReadsOnly is [t] := by
  cases h <;> simp +contextual [ReadsOnly]

theorem CastCode.readsOnly {v w : Value} {p q : Prim} {n n' : Nat} {is : List Instr}
    (h : CastCode v p q n is w n') :
    ReadsOnly is [] := by
  cases h <;> simp [ReadsOnly]

theorem ReadsOnly.append {is js : List Instr} {ts us : List Typed} (h : ReadsOnly is ts)
    (h' : ReadsOnly js us) :
    ReadsOnly (is ++ js) (ts ++ us) := by
  intro dst p v hload
  rcases List.mem_append.1 hload with hload | hload
  · obtain ⟨t, ht, hv⟩ := h dst p v hload
    exact ⟨t, List.mem_append_left _ ht, hv⟩
  · obtain ⟨t, ht, hv⟩ := h' dst p v hload
    exact ⟨t, List.mem_append_right _ ht, hv⟩

theorem CoerceCode.readsOnly {t : Typed} {ty : Ty} {n n' : Nat} {is : List Instr} {v : Value}
    (h : CoerceCode t ty n is v n') : ReadsOnly is [t] := by
  cases h with
  | plain h h' => exact h.readsOnly.append h'.readsOnly
  | pointer => simp [ReadsOnly]

theorem CombineCode.readsOnly {op : BinOp} {l r t : Typed} {n n' : Nat} {is : List Instr}
    (h : CombineCode op l r n is t n') : ReadsOnly is [l, r] := by
  cases h with
  | mk h₁ h₂ h₃ h₄ =>
    have hop : ∀ dst p v w, ReadsOnly [op.instr dst p v w] [] := by
      intro dst p v w
      cases op <;> simp [ReadsOnly, BinOp.instr]
    exact (((h₁.readsOnly.append h₂.readsOnly).append h₃.readsOnly).append h₄.readsOnly).append (hop
      _ _ _ _)

theorem ConditionCode.readsOnly {t : Typed} {n n' : Nat} {is : List Instr} {v : Value}
    (h : ConditionCode t n is v n') :
    ReadsOnly is [t] := by
  cases h <;> simp +contextual [ReadsOnly]

/-- Code on plain data keeps the rules if what it reads can be accessed. -/
theorem straight_data {F : Func} {m : Module} {done is : List Instr} {ts : List Typed}
    (hdata : ∀ i ∈ is, i.isData = true) (hreads : ReadsOnly is ts)
    (hts : ∀ t ∈ ts, t.Readable F (Holdings.after m done)) : F.Straight m done is := by
  induction is generalizing done with
  | nil => trivial
  | cons i is ih =>
    obtain ⟨hi, his⟩ := List.forall_mem_cons.1 hdata
    have hsame : Holdings.after m (done ++ [i]) = Holdings.after m done :=
      Holdings.after_data m done (by simpa using hi)
    refine ⟨⟨Instr.isTerminator_of_isData hi, ?_⟩,
      ih his (fun dst p v hv => hreads dst p v (.tail _ hv)) (hsame ▸ hts)⟩
    cases i with
    | load dst p v =>
      obtain ⟨t, ht, hty, rfl⟩ := hreads dst p v List.mem_cons_self
      exact hts t ht p hty
    | arith | compare | cast => trivial
    | _ => simp [Instr.isData] at hi

variable {Γ : Signatures} {F : Func} {m : Module}

/-- The functions that `F` calls are in the module, with the signatures that `F` was lowered
under. -/
def Func.Resolves (F : Func) (m : Module) (Γ : Signatures) : Prop :=
  ∀ dst c args signature, .call dst c args ∈ F.code → Γ.find? c = some signature →
    ∃ G, m.function? c = some G ∧ G.signature = signature

/-- Straight code under some scopes that leaves temporaries `ts` behind those that were there. -/
structure Func.Leaves (F : Func) (m : Module) (sc : Scopes Value) (us : List Value) (n : Nat)
    (done is : List Instr) (ts : List Value) (n' : Nat) : Prop where
  straight : F.Straight m done is
  owned : Owned m F.signature.params sc (ts ++ us) n' (done ++ is)
  le : (Holdings.after m done).Le (Holdings.after m (done ++ is))

namespace Func.Leaves

variable {sc : Scopes Value} {us ts ts' : List Value} {n n' n'' : Nat} {done is js : List Instr}

theorem data (vs : List Typed) (h : Owned m F.signature.params sc us n done)
    (hdata : ∀ i ∈ is, i.isData = true) (hreads : ReadsOnly is vs)
    (hvs : ∀ t ∈ vs, t.Readable F (Holdings.after m done)) (hn : n ≤ n') :
    F.Leaves m sc us n done is [] n' :=
  have hsame := Holdings.after_data m done hdata
  ⟨straight_data hdata hreads hvs, h.quiet hsame hn, hsame ▸ .refl _⟩

theorem nil (h : Owned m F.signature.params sc us n done) : F.Leaves m sc us n done [] [] n :=
  .data [] h (by simp) (by simp [ReadsOnly]) (by simp) le_rfl

theorem trans (h : F.Leaves m sc us n done is ts n')
    (h' : F.Leaves m sc (ts ++ us) n' (done ++ is) js ts' n'') :
    F.Leaves m sc us n done (is ++ js) (ts' ++ ts) n'' where
  straight := h.straight.append h'.straight
  owned := by simpa using h'.owned
  le := by simpa using h.le.trans h'.le

end Func.Leaves

theorem CombineCode.ty_ne_pointer {op : BinOp} {l r t : Typed} {n n' : Nat} {is : List Instr}
    (h : CombineCode op l r n is t n') (p : Prim) : t.ty ≠ .pointer p := by
  cases h with
  | mk =>
    cases op <;> simp [BinOp.resultTy]

/-- A call: a pointer that comes back is a new temporary. -/
theorem leaves_call {sc : Scopes Value} {us : List Value} {n : Nat} {done : List Instr} {c : String}
    {G : Func} {args : List Value} (h : Owned m F.signature.params sc us n done)
    (hG : m.function? c = some G) (hargs : List.Forall₂ (fun v ty => ty.isPointer = true →
      F.Address (Holdings.after m done) v) args G.signature.params) :
    F.Leaves m sc us n done [.call ⟨n⟩ c args] (if G.signature.ret.isPointer then [.reg ⟨n⟩]
      else []) (n + 1) ∧
      Typed.Readable F (Holdings.after m (done ++ [.call ⟨n⟩ c args])) ⟨.reg ⟨n⟩,
        .ofTy G.signature.ret⟩ := by
  have hstraight : F.Straight m done [.call ⟨n⟩ c args] :=
    .single rfl ⟨G, hG, fun _ => h.fresh le_rfl, hargs⟩
  cases hret : G.signature.ret with
  | plain p =>
    have hsame : Holdings.after m (done ++ [.call ⟨n⟩ c args]) = Holdings.after m done := by
      simp [Holdings.after_append, Holdings.step, Module.acquired?, hG, hret, Ty.isPointer]
    exact ⟨⟨hstraight, h.quiet hsame (by omega), hsame ▸ .refl _⟩, fun p hp => by cases hp⟩
  | pointer p =>
    have hacq : m.acquired? (.call ⟨n⟩ c args) = some ⟨n⟩ := by
      simp [Module.acquired?, hG, hret, Ty.isPointer]
    have howned := h.acquire le_rfl hacq
    refine ⟨⟨hstraight, howned, ?_, ?_⟩, fun p hp => ?_⟩
    · rw [Holdings.after_acquired hacq]
    · rw [Holdings.after_acquired hacq]
      exact Finset.subset_insert _ _
    · exact .inl ⟨_, rfl, .inr ((howned.live _).2 (.inr List.mem_cons_self))⟩

mutual

theorem ExprCode.leaves (hF : F.Resolves m Γ) {sc : Scopes Value} :
    ∀ {e n is t n' ts}, ExprCode Γ sc e n is t n' ts → (∀ i ∈ is, i ∈ F.code) →
    ∀ {us done}, Owned m F.signature.params sc us n done →
      F.Leaves m sc us n done is ts n' ∧ t.Readable F (Holdings.after m (done ++ is))
  | _, _, _, _, _, _, .int .., _, us, done, h => ⟨.nil h, fun p hp => by cases hp⟩
  | _, _, _, _, _, _, .double .., _, us, done, h => ⟨.nil h, fun p hp => by cases hp⟩
  | _, _, _, _, _, _, .slot (v := v) (p := p) pos n hl, _, us, done, h => by
    refine ⟨.data [⟨v, .pointer p⟩] h (by simp [Instr.isData]) (by simp +contextual [ReadsOnly]) ?_
      (by omega), fun p hp => by cases hp⟩
    rw [List.forall_mem_singleton]
    exact fun _ _ => h.address (Scopes.mem_of_lookup hl)
  | _, _, _, _, _, _, .pointer pos n hl, _, us, done, h =>
    ⟨.nil h, fun p hp => by simpa using h.address (Scopes.mem_of_lookup hl)⟩
  | _, _, _, _, _, _, .binary (t := t) (u := u) pos hl hr hc, hmem, us, done, h => by
    simp only [List.forall_mem_append] at hmem
    obtain ⟨hleft, ht⟩ := hl.leaves hF hmem.1.1 h
    obtain ⟨hright, hu⟩ := hr.leaves hF hmem.1.2 hleft.owned
    have hboth := hleft.trans hright
    refine ⟨hboth.trans (.data [t, u] hboth.owned hc.data hc.readsOnly ?_ hc.le), ?_⟩
    · simp only [List.forall_mem_cons, List.not_mem_nil, false_imp_iff, implies_true, and_true]
      rw [← List.append_assoc]
      exact ⟨ht.mono hright.le, hu⟩
    · exact fun p hp => absurd hp (hc.ty_ne_pointer p)
  | _, _, _, _, _, _, .call pos hf hargs, hmem, us, done, h => by
    rw [List.forall_mem_append, List.forall_mem_singleton] at hmem
    obtain ⟨hleaves, haddress⟩ := hargs.leaves hF hmem.1 h
    obtain ⟨G, hG, rfl⟩ := hF _ _ _ _ hmem.2 hf
    have hcall : F.Leaves m sc _ _ _ _ _ _ ∧ _ := leaves_call hleaves.owned hG haddress
    exact ⟨hleaves.trans hcall.1, by simpa using hcall.2⟩

theorem ArgsCode.leaves (hF : F.Resolves m Γ) {sc : Scopes Value} :
    ∀ {es tys n is vs n' ts}, ArgsCode Γ sc es tys n is vs n' ts → (∀ i ∈ is, i ∈ F.code) →
    ∀ {us done}, Owned m F.signature.params sc us n done →
      F.Leaves m sc us n done is ts n' ∧
      List.Forall₂ (fun v ty => ty.isPointer = true → F.Address (Holdings.after m (done ++ is)) v)
        vs tys
  | _, _, _, _, _, _, _, .nil .., _, us, done, h => ⟨.nil h, .nil⟩
  | _, _, _, _, _, _, _, .cons (t := t) he hc hs, hmem, us, done, h => by
    simp only [List.forall_mem_append] at hmem
    obtain ⟨hfirst, ht⟩ := he.leaves hF hmem.1.1 h
    have hcoerced :=
      hfirst.trans (.data [t] hfirst.owned hc.data hc.readsOnly (by simpa using ht) hc.le)
    obtain ⟨hrest, haddress⟩ := hs.leaves hF hmem.2 hcoerced.owned
    refine ⟨hcoerced.trans hrest, .cons (fun hty => ?_) (by simpa using haddress)⟩
    cases hc with
    | plain => simp [Ty.isPointer] at hty
    | pointer v p =>
      have hle := hrest.le
      simp only [List.append_nil, List.append_assoc] at hle ⊢
      exact (ht p rfl).mono hle

end

end ImpFront
