import Mathlib
import ImpFront.Proofs.Draft

/-! Statement boundaries. Between two statements of a body no temporaries are held and the block
that is written to is one of the function. A statement that is lowered from one boundary gets to the
next: the scopes are what they were but for the names that it declares, and each block that it left
behind has its terminator. -/

namespace ImpFront

open Lower

/-- The names that a statement declares in the scope it stands in. -/
def Stmt.names : Stmt → List String
  | .declaration _ _ xs => xs
  | _ => []

/-- The innermost frame has gained names, each of them once and none of them there before. -/
def Scopes.Gains (xs : List String) (sc sc' : Scopes Value) : Prop :=
  ∃ new : Frame Value, sc' = sc.modifyHead (new ++ ·) ∧ new.map Prod.fst = xs.reverse ∧ xs.Nodup ∧
    ∀ f ∈ sc.head?, ∀ d ∈ f, d.1 ∉ xs

/-- A state between two statements of the current function. -/
structure Lowering.AtBoundary (s : Lowering Recorder) (c : Current) : Prop where
  current : s.current = some c
  settled : s.temporaries = []
  placed : ∃ b, s.target.position = some ⟨c.function, b⟩ ∧ (s.target.block? ⟨c.function, b⟩).isSome

theorem Scopes.Gains.nil (sc : Scopes Value) : Gains [] sc sc :=
  ⟨[], by cases sc <;> rfl, rfl, List.nodup_nil, by simp⟩

theorem Scopes.Gains.cons {x : String} {xs : List String} {l : Local Value} {frame : Frame Value}
    {sc sc' : Scopes Value} (hx : frame.find? x = none)
    (h : Gains xs (((x, l) :: frame) :: sc) sc') : Gains (x :: xs) (frame :: sc) sc' := by
  obtain ⟨new, rfl, hnames, hnodup, hfresh⟩ := h
  have hfresh : x ∉ xs ∧ ∀ d ∈ frame, d.1 ∉ xs := List.forall_mem_cons.1 (hfresh _ rfl)
  have hframe : ∀ d ∈ frame, d.1 ≠ x := by simpa [Frame.find?] using hx
  refine ⟨new ++ [(x, l)], by simp, by simp [hnames], List.nodup_cons.2 ⟨hfresh.1, hnodup⟩,
    fun f hf d hd => ?_⟩
  cases hf
  exact List.not_mem_cons_of_ne_of_not_mem (hframe d hd) (hfresh.2 d hd)

theorem DeclareCode.gains {ty : Ty} {sc sc' : Scopes Value} {xs : List String} {n n' : Nat}
    {is : List Instr} (h : DeclareCode ty sc xs n is sc' n') : sc.Gains xs sc' := by
  induction h with
  | nil sc => exact .nil sc
  | cons hx _ ih => exact .cons hx ih

theorem StmtCode.gains {Γ : Signatures} {ret : Ty} {G : Func} {stmt : Stmt} {sc sc' : Scopes Value}
    {n n' : Nat} {k : List Instr} {r : Option (List Instr)}
    (h : StmtCode Γ ret G sc stmt n k sc' n' r) :
    Scopes.Gains stmt.names sc sc' := by
  cases h with
  | declaration _ h => exact h.gains
  | assignment | ret | ifElse | loop | block => exact .nil _

namespace Draft

variable {Γ : Signatures} {sig : Signature} {D D' : Draft} {new : Nat → Prop}

/-- Among some blocks, only the one that is written to and those that wait lack a terminator. -/
def Tidy (new : Nat → Prop) (D : Draft) : Prop :=
  ∀ i b, new i → D.body.func.blocks[i]? = some b → i = D.body.block ∨ i ∈ D.pending ∨
    b.isTerminated = true

theorem Tidy.write {B : Body} {P : List Nat} {E : List (Scopes Value)} (h : Tidy new ⟨B, P, E⟩)
    (is : List Instr) (n : Nat) (ts : List Value) (ds : List (String × Signature)) :
    Tidy new ⟨B.write is n ts ds, P, E⟩ := by
  intro i b hi hb
  by_cases hblock : i = B.block
  · exact .inl hblock
  · refine h i b hi ?_
    simpa [Body.write, Func.write, List.getElem?_modify, Ne.symm hblock] using hb

theorem Tidy.fork {B : Body} {P : List Nat} {E : List (Scopes Value)} (h : Tidy new ⟨B, P, E⟩)
    (first second third : String) (E' : List (Scopes Value)) :
    Tidy new ⟨B.fork first second third,
      B.func.blocks.length :: (B.func.blocks.length + 1) :: (B.func.blocks.length + 2) :: P,
        E'⟩ := by
  intro i b hi hb
  by_cases hold : i < B.func.blocks.length
  · have hsame : (B.fork first second third).func.blocks[i]? = B.func.blocks[i]? := by
      simp only [Body.fork, Body.addBlock, Func.addBlock, List.append_assoc,
        List.getElem?_append_left hold]
    refine (h i b hi (hsame ▸ hb)).imp_right (Or.imp_left fun hP => ?_)
    exact .tail _ (.tail _ (.tail _ hP))
  · have hlt := (List.getElem?_eq_some_iff.1 hb).1
    rw [Body.fork_length] at hlt
    refine .inr (.inl ?_)
    simp only [List.mem_cons]
    omega

/-- A block is left for the next one only when it is closed. -/
theorem Step.tidy (h : Step Γ sig D D') (hD : D.Tidy new) : D'.Tidy new := by
  cases h with
  | write ds => exact hD.write _ _ [] ds
  | close ds => exact hD.write _ _ [] ds
  | note text => exact hD.write _ _ [] []
  | leave => exact hD
  | fork first second third => exact hD.fork first second third _
  | @move B j P E hclosed =>
    intro i b hi hb
    rcases hD i b hi hb with rfl | hP | hterm
    · refine .inr (.inr ?_)
      have hb : B.func.blocks[B.block]? = some b := hb
      simpa [Body.closed, hb] using hclosed
    · exact (List.mem_cons.1 hP).imp_right .inl
    · exact .inr (.inr hterm)

theorem Path.tidy (h : Path Γ sig D D') (hD : D.Tidy new) : D'.Tidy new := by
  induction h with
  | refl => exact hD
  | tail _ hstep ih => exact hstep.tidy ih

end Draft

/-- The block that was written to at first, and each one that is new, is left with a terminator. -/
theorem Body.Leads.isTerminated {Γ : Signatures} {sig : Signature} {B B' : Body}
    (h : B.Leads Γ sig B') {i : Nat} (hi : i = B.block ∨ B.func.blocks.length ≤ i)
    (hne : i ≠ B'.block) {b : BasicBlock} (hb : B'.func.blocks[i]? = some b) :
    b.isTerminated = true := by
  obtain ⟨E, hpath⟩ := h [] (B.func.blocks.map fun _ => []) (List.length_map _)
  have hstart : Draft.Tidy (fun i => i = B.block ∨ B.func.blocks.length ≤ i)
      ⟨B, [], B.func.blocks.map fun _ => []⟩ := by
    rintro j c (rfl | hj) hc
    · exact .inl rfl
    · exact absurd (List.getElem?_eq_some_iff.1 hc).1 (Nat.not_lt.2 hj)
  rcases hpath.tidy hstart i b hi hb with he | hP | hterm
  · exact absurd he hne
  · cases hP
  · exact hterm

theorem Site.block?_recorder (S : Site) (B : Body) (i : Nat) :
    (S.recorder B).block? ⟨S.id, ⟨i⟩⟩ = B.func.blocks[i]? := by
  rw [Recorder.block?, S.function?_recorder, Option.bind_some]

/-- Lowering one body adds no blocks to other functions. -/
theorem Site.block?_other {S : Site} {B : Body} {r : BlockRef} {b : BasicBlock}
    (hr : r.function ≠ S.id) (h : (S.recorder B).block? r = some b) :
    S.start.target.block? r = some b := by
  obtain ⟨G, hG, hb⟩ := Option.bind_eq_some_iff.1 h
  rcases S.function?_cases hG with ⟨hid, -⟩ | ⟨-, hold⟩ | ⟨d, -, rfl⟩
  · exact absurd hid hr
  · exact Option.bind_eq_some_iff.2 ⟨G, hold, hb⟩
  · cases hb

/-- At a boundary the state is that of a body at its own site. -/
theorem Lowering.AtBoundary.exists_site {s : Lowering Recorder} {c : Current} (h : s.AtBoundary c)
    (hopen : s.target.isTerminated = false) :
    ∃ (S : Site) (B : Body),
      S.start = s ∧ S.id = c.function ∧ S.ret = c.ret ∧ S.state B = s ∧ B.Ready := by
  obtain ⟨hcurrent, hsettled, ⟨b⟩, hpos, hblock⟩ := h
  obtain ⟨C, hC⟩ := Option.isSome_iff_exists.1 hblock
  obtain ⟨F, hF, hC⟩ := Option.bind_eq_some_iff.1 hC
  have hslot : s.target.functions[c.function.index]? = some (some F) := Option.join_eq_some_iff.1 hF
  have hlive := (List.getElem?_eq_some_iff.1 hslot).1
  refine ⟨⟨s, c.function, c.ret, hlive, hcurrent⟩, ⟨F, b, s.scopes, s.temporaries, []⟩, rfl, rfl,
    rfl, Site.state_self _ F b hF hpos, ⟨(List.getElem?_eq_some_iff.1 hC).1, hsettled, ?_⟩⟩
  have hterm : C.isTerminated = false := by
    simpa [Recorder.isTerminated, hpos, Recorder.block?, hF, hC] using hopen
  have hC : F.blocks[b]? = some C := hC
  simp [Body.closed, hC, hterm]

/-- A statement gets from one boundary to the next. The innermost frame gains the names that it
declares, and nothing else changes in the scopes. Every block that is new, and the one it began in,
is terminated unless it is written to next. -/
theorem Stmt.lower_atBoundary {stmt : Stmt} {s s' : Lowering Recorder} {c : Current}
    (hs : s.AtBoundary c) (hopen : s.target.isTerminated = false) (h : stmt.lower s = .ok () s') :
    s'.AtBoundary c ∧ s.scopes.Gains stmt.names s'.scopes ∧
      ∀ r b, s.target.block? r = none ∨ s.target.position = some r → s'.target.block? r = some b →
        s'.target.position ≠ some r → b.isTerminated = true := by
  obtain ⟨S, B, rfl, hid, hret, hstate, hready⟩ := hs.exists_site hopen
  rw [← hstate] at h
  obtain ⟨B', rfl, hlowered⟩ := stmt.lower_code B s' hready h
  have hleads : B.Leads S.start.signatures ⟨[], S.ret⟩ B' := stmt.lower_drafts rfl B B' hready h
  refine ⟨⟨hs.current, hlowered.becomes.settled, ⟨B'.block⟩, ?_, ?_⟩, ?_, ?_⟩
  · rw [← hid]
    rfl
  · rw [← hid]
    show ((S.recorder B').block? _).isSome = true
    rw [S.block?_recorder, List.getElem?_eq_getElem hlowered.becomes.block]
    rfl
  · rw [← hstate]
    exact (hlowered.code _ (.refl _)).gains
  · rintro ⟨f, ⟨i⟩⟩ b hr hb hne
    by_cases hf : f = S.id
    · subst hf
      have hb : B'.func.blocks[i]? = some b := (S.block?_recorder B' i).symm.trans hb
      refine hleads.isTerminated ?_ (fun he => hne (by rw [he]; rfl)) hb
      rw [← hstate] at hr
      refine hr.symm.imp (fun hpos => ?_) fun hnone => ?_
      · cases hpos
        rfl
      · exact List.getElem?_eq_none_iff.1 ((S.block?_recorder B i).symm.trans hnone)
    · have hold := Site.block?_other hf hb
      rcases hr with hnone | hpos
      · rw [hnone] at hold
        cases hold
      · -- the block that was written to is one of this function
        rw [← hstate] at hpos
        cases hpos
        exact absurd rfl hf

/-- A loop whose test leaves a heap cell behind and whose body declares another one and returns. -/
theorem Stmt.lower_atBoundary_loop :
    let s : Lowering Recorder :=
  ⟨⟨[some ⟨"f", ⟨[], .plain .int⟩, [⟨"entry", []⟩], 0⟩], some ⟨⟨0⟩, ⟨0⟩⟩⟩,
      ⟨[("g", ⟨[], .pointer .int⟩)], []⟩, [[]], some ⟨⟨0⟩, .plain .int⟩, []⟩
    let stmt : Stmt :=
      .loop 0 (.call 0 "g" []) (.mk 0 [.declaration 0 (.pointer .int) ["p"], .ret 0 (.var 0 "p")])
    s.AtBoundary ⟨⟨0⟩, .plain .int⟩ ∧ s.target.isTerminated = false ∧
      ∃ s', stmt.lower s = .ok () s' ∧ s'.AtBoundary ⟨⟨0⟩, .plain .int⟩ ∧
        s.scopes.Gains [] s'.scopes ∧
        s'.target.position = some ⟨⟨0⟩, ⟨3⟩⟩ ∧ ∃ b,
          s'.target.block? ⟨⟨0⟩, ⟨2⟩⟩ = some b ∧ b.isTerminated = true := by
  intro s stmt
  have hs : s.AtBoundary ⟨⟨0⟩, .plain .int⟩ := ⟨rfl, rfl, ⟨0⟩, rfl, rfl⟩
  have hrun : EStateM.run' (stmt.lower >>= fun _ =>
      (fun t => (t.target.position, (t.target.block? ⟨⟨0⟩, ⟨2⟩⟩).isSome)) <$> get) s =
        some (some ⟨⟨0⟩, ⟨3⟩⟩, true) := by
    decide +kernel
  cases h : stmt.lower s with
  | error e s' =>
    rw [EStateM.run', EStateM.run, bind_of_error h] at hrun
    cases hrun
  | ok u s' =>
    obtain ⟨hs', hgains, hblocks⟩ := Stmt.lower_atBoundary hs rfl h
    rw [EStateM.run', EStateM.run, bind_of_ok h] at hrun
    obtain ⟨hpos, hsome⟩ := Prod.mk.inj (Option.some.inj hrun)
    obtain ⟨b, hb⟩ := Option.isSome_iff_exists.1 hsome
    exact ⟨hs, rfl, s', rfl, hs', hgains, hpos, b, hb,
      hblocks _ b (.inl rfl) hb (by rw [hpos]; decide)⟩

end ImpFront
