import Mathlib
import ImpFront.Proofs.LowerItem
import ImpFront.Proofs.Lockstep

/-! What lowering leaves behind however it ends. A body that fails half way has changed the target
too: its own function has some code, and callees may have been declared. Nothing else has changed,
and how the body ends does not depend on where it is lowered: at two sites that know the same
callees it ends alike, and with the same function. -/

namespace ImpFront

open Lower

namespace Site

variable {S S' : Site} {ns : List String} {B B' B₀ : Body}

/-- What may become of a body: its function stays the same one, and the functions that are declared
are known. -/
structure Follows (S : Site) (B B' : Body) : Prop where
  name : B'.func.name = B.func.name
  signature : B'.func.signature = B.func.signature
  declared :
    ∃ ds, B'.declared = B.declared ++ ds ∧ ∀ d ∈ ds, S.start.signatures.find? d.1 = some d.2

/-- A body that follows another and has declared only functions of the given names, each of them
once. -/
structure Adds (S : Site) (ns : List String) (B B' : Body) : Prop extends S.Follows B B' where
  fresh : (S.recorder B).names.Nodup → (S.recorder B').names.Nodup
  called : ∀ d ∈ B'.declared, d ∈ B.declared ∨ d.1 ∈ ns

theorem Adds.refl (S : Site) (ns : List String) (B : Body) : S.Adds ns B B :=
  ⟨⟨rfl, rfl, [], by simp, by simp⟩, fun h => h, fun _ hd => .inl hd⟩

theorem Adds.declare (h : S.Adds ns B₀ B) {ds : List (String × Signature)}
    (hname : B'.func.name = B.func.name) (hsig : B'.func.signature = B.func.signature)
    (hdecl : B'.declared = B.declared ++ ds) (hds : ∀ d ∈ ds,
      S.start.signatures.find? d.1 = some d.2 ∧ d.1 ∈ ns ∧ d.1 ∉ (S.recorder B).names)
    (hnodup : (ds.map Prod.fst).Nodup) : S.Adds ns B₀ B' := by
  obtain ⟨⟨hn, hs, es, hes, hknown⟩, hfresh, hcalled⟩ := h
  refine ⟨⟨hname.trans hn, hsig.trans hs, es ++ ds, by rw [hdecl, hes, List.append_assoc],
    fun d hd => ?_⟩, fun hnod => ?_, fun d hd => ?_⟩
  · rcases List.mem_append.1 hd with hd | hd
    · exact hknown d hd
    · exact (hds d hd).1
  · rw [names_of_name_eq B B' hname ds hdecl]
    refine List.nodup_append.2 ⟨hfresh hnod, hnodup, ?_⟩
    rintro name hin _ hnew rfl
    obtain ⟨d, hd, rfl⟩ := List.mem_map.1 hnew
    exact (hds d hd).2.2 hin
  · rw [hdecl] at hd
    rcases List.mem_append.1 hd with hd | hd
    · exact hcalled d hd
    · exact .inr (hds d hd).2.1

/-- Whatever is done to a body, as long as nothing is declared. -/
theorem Adds.step (h : S.Adds ns B₀ B) (hname : B'.func.name = B.func.name)
    (hsig : B'.func.signature = B.func.signature) (hdecl : B'.declared = B.declared) :
    S.Adds ns B₀ B' :=
  h.declare hname hsig (by rw [hdecl, List.append_nil]) (List.forall_mem_nil _) .nil

theorem Adds.call (h : S.Adds ns B₀ B) {g : String} {signature : Signature} (hg : g ∈ ns)
    (hknown : S.start.signatures.find? g = some signature) (is : List Instr) (n : Nat)
    (ts : List Value) :
    S.Adds ns B₀ (B.write is n ts (S.missing B g signature)) := by
  refine h.declare rfl rfl rfl (fun d hd => ?_) ?_
  · unfold missing at hd
    split at hd
    · simp at hd
    · obtain rfl := List.mem_singleton.1 hd
      exact ⟨hknown, hg, ‹_›⟩
  · unfold missing
    split
    · exact .nil
    · exact List.nodup_singleton _

end Site

/-- The same body in a target where other functions were declared. -/
def Body.declaring (B : Body) (ds : List (String × Signature)) : Body := { B with declared := ds }

namespace Site

variable {S S' : Site} {ns : List String} {B B₀ : Body}

/-- What two sites have to agree on for a body that calls the given functions. -/
structure Agrees (S S' : Site) (ns : List String) : Prop where
  ret : S'.ret = S.ret
  known : ∀ g ∈ ns, S'.start.signatures.find? g = S.start.signatures.find? g

theorem Agrees.refl (S : Site) (ns : List String) : S.Agrees S ns := ⟨rfl, fun _ _ => rfl⟩

/-- The states of two sites while one body is lowered at both. -/
def Twins (S S' : Site) (ns : List String) (B₀ : Body) (s s' : Lowering Recorder) : Prop :=
  ∃ B ds, s = S.state B ∧ s' = S'.state (B.declaring ds) ∧ S.Adds ns B₀ B ∧
    S'.Adds ns B₀ (B.declaring ds)

end Site

@[simp] theorem Body.write_declaring (B : Body) (is : List Instr) (n : Nat) (ts : List Value)
    (ds : List (String × Signature)) :
    (B.declaring ds).write is n ts [] = (B.write is n ts []).declaring ds := by
  simp [Body.write, Body.declaring]

variable {S S' : Site} {ns : List String} {B₀ : Body}

/-- A step that does the same to a body at both sites and declares nothing. -/
theorem twins_step {α β : Type} {x : Lower Recorder α} {y : Lower Recorder β} {P : α → β → Prop}
    (h : ∀ B, ∃ a b C, x (S.state B) = .ok a (S.state C) ∧
      (∀ ds, y (S'.state (B.declaring ds)) = .ok b (S'.state (C.declaring ds))) ∧ P a b ∧
      C.func.name = B.func.name ∧ C.func.signature = B.func.signature ∧ C.declared = B.declared) :
    Paired (S.Twins S' ns B₀) id x y P := by
  rintro _ _ ⟨B, ds, rfl, rfl, hB, hB'⟩
  obtain ⟨a, b, C, hx, hy, hP, hname, hsig, hdecl⟩ := h B
  exact ⟨_, _, ⟨C, ds, rfl, rfl, hB.step hname hsig hdecl, hB'.step hname hsig rfl⟩,
    .inl ⟨a, b, hx, hy ds, hP⟩⟩

theorem twins_write {α : Type} {x y : Lower Recorder α}
    (h : ∀ B, ∃ a is n, x (S.state B) = .ok a (S.state (B.write is n [] [])) ∧
      ∀ ds, y (S'.state (B.declaring ds)) = .ok a (S'.state ((B.declaring ds).write is n [] []))) :
    Paired (S.Twins S' ns B₀) id x y Eq := by
  apply twins_step
  intro B
  obtain ⟨a, is, n, hx, hy⟩ := h B
  refine ⟨a, a, _, hx, fun ds => ?_, rfl, rfl, rfl, List.append_nil _⟩
  rw [hy, Body.write_declaring]

namespace Op

/-- At every site the operation gives the same result and writes the same code. -/
def Writes {α : Type} (op : Op α) (B : Body) : Prop :=
  ∃ a is n, ∀ (S : Site) (ds : List (String × Signature)),
    emit op (S.state (B.declaring ds)) = .ok a (S.state ((B.declaring ds).write is n [] []))

theorem writes_define {op : Op Value} (i : Reg → Instr)
    (h : ∀ r, Recorder.perform op r = Recorder.define i r) (B : Body) :
    op.Writes B :=
  ⟨.reg ⟨B.func.registers⟩, [i ⟨B.func.registers⟩], B.func.registers + 1,
    fun S _ => S.emit_define _ (h _)⟩

theorem writes_push {op : Op Unit} (i : Instr) (h : ∀ r, Recorder.perform op r = Recorder.push i r)
    (B : Body) :
    op.Writes B :=
  ⟨(), [i], B.func.registers, fun S _ => S.emit_push _ (h _)⟩

theorem writes_nothing {α : Type} {op : Op α} {B : Body} (a : α)
    (h : ∀ (S : Site) (ds : List (String × Signature)),
      emit op (S.state (B.declaring ds)) = .ok a (S.state (B.declaring ds))) : op.Writes B := by
  refine ⟨a, [], B.func.registers, fun S ds => ?_⟩
  rw [h, show B.func.registers = (B.declaring ds).func.registers from rfl, Body.write_nil]

/-- Plain code names registers of its function and no handles. -/
theorem writes_of_isCode {α : Type} {op : Op α} (h : op.isCode = true) (B : Body) :
    op.Writes B := by
  cases op with
  | constInt w => exact writes_nothing (.int w) fun _ _ => rfl
  | constDouble x => exact writes_nothing (.double x) fun _ _ => rfl
  | functionParam f i => exact writes_nothing (paramValue i) fun _ _ => rfl
  | isTerminated => exact writes_nothing B.closed fun S ds => S.emit_isTerminated (B.declaring ds)
  | load p v => exact writes_define (fun r => .load r p v) (fun _ => rfl) B
  | arith o p v w => exact writes_define (fun r => .arith r o p v w) (fun _ => rfl) B
  | compare c p v w => exact writes_define (fun r => .compare r c p v w) (fun _ => rfl) B
  | cast c v => exact writes_define (fun r => .cast r c v) (fun _ => rfl) B
  | stackAlloc p x => exact writes_define (fun r => .stackAlloc r p x) (fun _ => rfl) B
  | heapAlloc p x => exact writes_define (fun r => .heapAlloc r p x) (fun _ => rfl) B
  | store v w => exact writes_push (.store v w) (fun _ => rfl) B
  | heapFree v => exact writes_push (.heapFree v) (fun _ => rfl) B
  | ret v => exact writes_push (.ret v) (fun _ => rfl) B
  | unreachable => exact writes_push .unreachable (fun _ => rfl) B
  | comment text =>
    exact ⟨(), [.comment text], B.func.registers, fun S ds => S.emit_comment (B.declaring ds) text⟩
  | _ => cases h

end Op

/-- Two sites that agree on the callees go through a body in lockstep. -/
def Site.Agrees.lockstep (h : S.Agrees S' ns) (B₀ : Body) : Lockstep Recorder Recorder where
  Rel := S.Twins S' ns B₀
  place := fun n => n
  Block b b' := ∃ i, b = ⟨S.id, ⟨i⟩⟩ ∧ b' = ⟨S'.id, ⟨i⟩⟩
  callees := ns
  signatures := S.start.signatures
  scopes := by
    rintro _ _ ⟨B, ds, rfl, rfl, -⟩
    rfl
  temporaries := by
    rintro _ _ ⟨B, ds, rfl, rfl, -⟩
    rfl
  rescope := by
    rintro _ _ sc ⟨B, ds, rfl, rfl, hB, hB'⟩
    exact ⟨B.rescope sc, ds, rfl, rfl, hB.step rfl rfl rfl, hB'.step rfl rfl rfl⟩
  retain := by
    rintro _ _ ts ⟨B, ds, rfl, rfl, hB, hB'⟩
    exact ⟨{ B with temporaries := ts }, ds, rfl, rfl, hB.step rfl rfl rfl, hB'.step rfl rfl rfl⟩
  known := by
    rintro _ _ g ⟨B, ds, rfl, rfl, -⟩ hg
    exact ⟨rfl, h.known g hg⟩
  code hop := twins_write fun B => by
    obtain ⟨a, is, n, hemit⟩ := Op.writes_of_isCode hop B
    exact ⟨a, is, n, hemit S B.declared, hemit S'⟩
  current := twins_step fun B => by
    refine ⟨_, _, B, current_state S B, fun ds => current_state S' _, ⟨h.ret, fun hint => ?_⟩, rfl,
      rfl, rfl⟩
    exact twins_step fun B => ⟨_, _, B.addBlock hint, S.emit_appendBlock B hint,
      fun ds => S'.emit_appendBlock (B.declaring ds) hint, ⟨_, rfl, rfl⟩, rfl, rfl, rfl⟩
  branch := by
    rintro _ _ ⟨i, rfl, rfl⟩
    exact twins_write fun B =>
      ⟨_, _, _, S.emit_branch B i, fun ds => S'.emit_branch (B.declaring ds) i⟩
  condBranch := by
    rintro v _ _ _ _ ⟨i, rfl, rfl⟩ ⟨j, rfl, rfl⟩
    exact twins_write fun B =>
      ⟨_, _, _, S.emit_condBranch B v i j, fun ds => S'.emit_condBranch (B.declaring ds) v i j⟩
  positionAtEnd := by
    rintro _ _ ⟨i, rfl, rfl⟩
    exact twins_step fun B => ⟨_, _, B.moveTo i, S.emit_positionAtEnd B i,
      fun ds => S'.emit_positionAtEnd (B.declaring ds) i, rfl, rfl, rfl, rfl⟩
  call := by
    rintro pos g signature args hg hfind _ _ ⟨B, ds, rfl, rfl, hB, hB'⟩
    have hfind' : S'.start.signatures.find? g = some signature := (h.known g hg).trans hfind
    refine ⟨_, _, ⟨_, _, rfl, rfl, hB.call hg hfind _ _ _, hB'.call hg hfind' _ _ _⟩,
      .inl ⟨_, _, S.call_state B hfind pos _ args, S'.call_state _ hfind' pos _ args, rfl⟩⟩

/-- A function of the target waits for its body at the site. -/
structure Site.Hosts (S : Site) (F : Func) : Prop where
  func : S.start.target.function? S.id = some F
  scopes : S.start.scopes = []
  temporaries : S.start.temporaries = []

/-- A definition that is lowered into the same function at two sites which agree on its callees ends
alike. -/
theorem Definition.lowerBody_twins {d : Definition} {F : Func} (hF : S.Hosts F) (hF' : S'.Hosts F)
    (h : S.Agrees S' d.callees) :
    ∃ B ds, S.Adds d.callees (Body.entry F) B ∧ S'.Adds d.callees (Body.entry F) (B.declaring ds) ∧
      ((d.lowerBody S.id S.start = .ok () (S.state B) ∧
        d.lowerBody S'.id S'.start = .ok () (S'.state (B.declaring ds))) ∨
        ∃ e, d.lowerBody S.id S.start = .error e (S.state B) ∧
          d.lowerBody S'.id S'.start = .error e (S'.state (B.declaring ds))) := by
  rw [Definition.lowerBody, Definition.lowerBody, begin_state hF.func hF.scopes hF.temporaries,
    begin_state hF'.func hF'.scopes hF'.temporaries]
  have hparam : ∀ i, (h.lockstep (Body.entry F)).Steps (emit (.functionParam S.id i))
      (emit (.functionParam S'.id i)) :=
    fun i => twins_step fun B =>
      ⟨_, _, B, S.emit_functionParam B S.id i, fun ds => S'.emit_functionParam _ S'.id i,
      rfl, rfl, rfl, rfl⟩
  have hsteps := Definition.lowerBody_steps d (fun _ hg => hg) hparam
  rw [show d.mapPos (h.lockstep (Body.entry F)).place = d from d.mapPos_id] at hsteps
  obtain ⟨_, _, ⟨B, ds, rfl, rfl, hB, hB'⟩, hend⟩ := hsteps _ _
    ⟨Body.entry F, [], rfl, rfl, .refl _ _ _, .refl _ _ _⟩
  refine ⟨B, ds, hB, hB', ?_⟩
  rcases hend with ⟨a, b, hx, hy, -⟩ | ⟨e, e', hx, hy, he⟩
  · exact .inl ⟨hx, hy⟩
  · obtain rfl : e' = e := he.eq
    exact .inr ⟨e', hx, hy⟩

/-- However the body of a definition ends, what is left of it is in a state of its site. -/
theorem Definition.lowerBody_follows {d : Definition} {F : Func}
    (hF : S.start.target.function? S.id = some F) (hsc : S.start.scopes = [])
    (hts : S.start.temporaries = []) :
    ∃ B', S.Follows (Body.entry F) B' ∧
      ((d.lowerBody S.id S.start = .ok () (S.state B')) ∨ ∃ e,
        d.lowerBody S.id S.start = .error e (S.state B')) := by
  have hosts : S.Hosts F := ⟨hF, hsc, hts⟩
  obtain ⟨B, -, hB, -, ⟨h, -⟩ | ⟨e, h, -⟩⟩ :=
    Definition.lowerBody_twins (d := d) hosts hosts (.refl S _)
  · exact ⟨B, hB.toFollows, .inl h⟩
  · exact ⟨B, hB.toFollows, .inr ⟨e, h⟩⟩

end ImpFront
