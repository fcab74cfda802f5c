import Mathlib
import ImpFront.Proofs.Outcome

/-! A whole session. Each item that is lowered is rejected at once, or its body is lowered at a
site, and a failed body is taken back. What holds at the start and is kept by each item therefore
holds of the module that a source compiles to. -/

namespace ImpFront

open Lower

namespace Signatures

variable {Γ Γ' : Signatures} {name : String} {signature : Signature}

theorem defined_register (h : Γ.register name signature = .ok Γ') : Γ'.defined = Γ.defined := by
  unfold register at h
  repeat' split at h
  all_goals cases h
  · rfl
  · rfl

/-- What was known before is known. -/
theorem find?_register_mono (h : Γ.register name signature = .ok Γ') {other : String}
    {s : Signature} (hs : Γ.find? other = some s) : Γ'.find? other = some s := by
  rw [find?_register h]
  split
  · rename_i heq
    subst heq
    unfold register at h
    rw [hs] at h
    simp only at h
    split at h
    · rename_i he
      rw [he]
    · cases h
  · exact hs

theorem eq_of_register {fault : Fault} (h : Γ.register name signature = .error fault) :
    fault = .conflictingPrototype name := by
  unfold register at h
  split at h
  · split at h
    · cases h
    · exact (Except.error.inj h).symm
  · cases h

end Signatures

/-- The site at which the body of a definition is lowered, and the function it is lowered into. -/
structure Definition.Begun (d : Definition) (s : Lowering Recorder) (S : Site) (F : Func) :
    Prop where
  undefined : s.signatures.isDefined d.prototype.name = false
  registered : s.signatures.register d.prototype.name d.prototype.signature = .ok S.start.signatures
  place : (s.target.find? d.prototype.name = some S.id ∧ S.start.target = s.target) ∨
    (s.target.find? d.prototype.name = none ∧ S.id = ⟨s.target.functions.length⟩ ∧
      S.start.target = (s.target.declare d.prototype.name d.prototype.signature).2)
  func : S.start.target.function? S.id = some F
  ret : S.ret = d.prototype.ret
  scopes : S.start.scopes = []
  temporaries : S.start.temporaries = []

/-- The state between two items. -/
def Lowering.rest {σ : Type} (s : Lowering σ) : Lowering σ :=
  { s with current := none, scopes := [], temporaries := [] }

/-- The state in which the body of a function is begun. -/
def Lowering.inside {σ : Type} (s : Lowering σ) (f : FunctionId) (ret : Ty) : Lowering σ :=
  { s with current := some ⟨f, ret⟩, scopes := [], temporaries := [] }

/-- Takes back a failed body: a function that was there before keeps its declaration. -/
def Op.takeBack (found : Option FunctionId) (f : FunctionId) : Op Unit :=
  if found.isSome then .clearBody f else .discardFunction f

theorem Lower.emit_takeBack (found : Option FunctionId) (f : FunctionId) (s : Lowering Recorder) :
    emit (.takeBack found f) s =
      .ok () { s with
        target := if found.isSome then s.target.clearBody f else s.target.discard f } := by
  unfold Op.takeBack
  cases found <;> rfl

/-- A definition is let in: its signature is new or known, and the target hands out its function. -/
structure Definition.Opens {σ : Type} [Emitter σ] (d : Definition) (s : Lowering σ)
    (found : Option FunctionId) (f : FunctionId) (t : Lowering σ) : Prop where
  undefined : s.signatures.isDefined d.prototype.name = false
  handed : ∃ s₁,
    register d.prototype s = .ok () s₁ ∧ emit (.getFunction d.prototype.name) s₁ = .ok found s₁ ∧
    functionHandle d.prototype.pos d.prototype.name s₁ = .ok f t

namespace Definition.Opens

variable {σ : Type} [Emitter σ] {d : Definition} {s t u v : Lowering σ} {found : Option FunctionId}
  {f : FunctionId}

theorem lower_ok (h : d.Opens s found f t)
    (hbody : d.lowerBody f (t.inside f d.prototype.ret) = .ok () u) :
    d.lower s = .ok f { u.rest with signatures := u.signatures.setDefined d.prototype.name } := by
  obtain ⟨hd, s₁, hreg, hget, hhandle⟩ := h
  have hdef : isDefined d.prototype.name s = .ok false s := by rw [← hd]; rfl
  have henter : enter (some ⟨f, d.prototype.ret⟩) t = .ok () (t.inside f d.prototype.ret) := rfl
  have hattempt : attempt (d.lowerBody f) (t.inside f d.prototype.ret) = .ok (.ok ()) u := by
    simp only [attempt, hbody]
  unfold Definition.lower
  simp only
  rw [bind_of_ok hdef, if_neg Bool.false_ne_true, bind_of_ok hreg, bind_of_ok hget,
    bind_of_ok hhandle, bind_of_ok henter, bind_of_ok hattempt]
  rfl

theorem lower_error {e : LowerError} (h : d.Opens s found f t)
    (hbody : d.lowerBody f (t.inside f d.prototype.ret) = .error e u)
    (hback : emit (.takeBack found f) u.rest = .ok () v) :
    d.lower s = .error e v := by
  obtain ⟨hd, s₁, hreg, hget, hhandle⟩ := h
  have hdef : isDefined d.prototype.name s = .ok false s := by rw [← hd]; rfl
  have henter : enter (some ⟨f, d.prototype.ret⟩) t = .ok () (t.inside f d.prototype.ret) := rfl
  have hattempt : attempt (d.lowerBody f) (t.inside f d.prototype.ret) = .ok (.error e) u := by
    simp only [attempt, hbody]
  have hleave : (enter none : Lower σ Unit) u = .ok () u.rest := rfl
  unfold Definition.lower
  simp only
  rw [bind_of_ok hdef, if_neg Bool.false_ne_true, bind_of_ok hreg, bind_of_ok hget,
    bind_of_ok hhandle, bind_of_ok henter, bind_of_ok hattempt, bind_of_ok hleave]
  unfold Op.takeBack at hback
  cases found with
  | none => exact bind_of_ok hback
  | some g => exact bind_of_ok hback

end Definition.Opens

theorem Definition.exists_begun (d : Definition) {s : Lowering Recorder} {Γ : Signatures}
    (hd : s.signatures.isDefined d.prototype.name = false)
    (h : s.signatures.register d.prototype.name d.prototype.signature = .ok Γ) :
    ∃ (S : Site) (F : Func), d.Begun s S F ∧
      ∃ t, functionHandle d.prototype.pos d.prototype.name { s with signatures := Γ } = .ok S.id t ∧
        S.start =
          { t with current := some ⟨S.id, d.prototype.ret⟩, scopes := [], temporaries := [] } := by
  have hfind : Γ.find? d.prototype.name = some d.prototype.signature := by
    rw [Signatures.find?_register h, if_pos rfl]
  have hhandle := functionHandle_ok (s := { s with signatures := Γ }) hfind d.prototype.pos
  cases hf : s.target.find? d.prototype.name with
  | some g =>
    obtain ⟨F, hF, -⟩ := Recorder.function?_of_find? hf
    have hlive : g.index < s.target.functions.length := by
      rw [Recorder.function?, Option.join_eq_some_iff] at hF
      exact (List.getElem?_eq_some_iff.1 hF).1
    refine ⟨⟨{ s with
      signatures := Γ, current := some ⟨g, d.prototype.ret⟩, scopes := [], temporaries := [] }, g,
      d.prototype.ret, hlive, rfl⟩, F, ⟨hd, h, .inl ⟨hf, rfl⟩, hF, rfl, rfl, rfl⟩,
        { s with signatures := Γ }, ?_, rfl⟩
    simpa [hf] using hhandle
  | none =>
    refine ⟨⟨{ s with
        signatures := Γ
        target := (s.target.declare d.prototype.name d.prototype.signature).2
        current := some ⟨⟨s.target.functions.length⟩, d.prototype.ret⟩
        scopes := []
        temporaries := [] }, ⟨s.target.functions.length⟩, d.prototype.ret, by
          simp [Recorder.declare], rfl⟩,
      ⟨d.prototype.name, d.prototype.signature, [], 0⟩,
        ⟨hd, h, .inr ⟨hf, rfl, rfl⟩, ?_, rfl, rfl, rfl⟩,
      { s with
        signatures := Γ, target := (s.target.declare d.prototype.name d.prototype.signature).2 },
        ?_, rfl⟩
    · simp [Recorder.function?, Recorder.declare]
    · simpa [hf] using hhandle

/-- A definition whose signature is known or new ends as its body does, and a failed body is taken
back. -/
theorem Definition.lower_begun (d : Definition) {s : Lowering Recorder} {Γ : Signatures}
    (hd : s.signatures.isDefined d.prototype.name = false)
    (hreg : s.signatures.register d.prototype.name d.prototype.signature = .ok Γ) :
    ∃ (S : Site) (F : Func) (B : Body), d.Begun s S F ∧ S.Follows (Body.entry F) B ∧
      ((d.lowerBody S.id S.start = .ok () (S.state B) ∧
        d.lower s = .ok S.id
          { (S.state B).rest with signatures := S.start.signatures.setDefined d.prototype.name }) ∨
      ∃ e, d.lowerBody S.id S.start = .error e (S.state B) ∧
        d.lower s = .error e { (S.state B).rest with
          target := if (s.target.find? d.prototype.name).isSome then (S.recorder B).clearBody S.id
            else (S.recorder B).discard S.id }) := by
  obtain ⟨S, F, hbegun, t, hhandle, hstart⟩ := d.exists_begun hd hreg
  obtain ⟨B, hfollows, hend⟩ :=
    Definition.lowerBody_follows (d := d) hbegun.func hbegun.scopes hbegun.temporaries
  have hopens : d.Opens s (s.target.find? d.prototype.name) S.id t :=
    ⟨hd, { s with signatures := Γ }, by simp only [register, hreg], rfl, hhandle⟩
  have hinside : t.inside S.id d.prototype.ret = S.start := hstart.symm
  refine ⟨S, F, B, hbegun, hfollows, ?_⟩
  rcases hend with hbody | ⟨e, hbody⟩
  · exact .inl ⟨hbody, hopens.lower_ok (by rw [hinside]; exact hbody)⟩
  · exact .inr ⟨e, hbody, hopens.lower_error (by rw [hinside]; exact hbody) (emit_takeBack _ _ _)⟩

theorem Definition.lower_redefined (d : Definition) {s : Lowering Recorder}
    (hd : s.signatures.isDefined d.prototype.name = true) :
    d.lower s = .error ⟨.functionRedefined d.prototype.name, d.prototype.pos⟩ s := by
  have hdef : isDefined d.prototype.name s = .ok true s := by rw [← hd]; rfl
  exact bind_of_ok hdef

theorem Definition.lower_conflicting (d : Definition) {s : Lowering Recorder} {fault : Fault}
    (hd : s.signatures.isDefined d.prototype.name = false)
    (hreg : s.signatures.register d.prototype.name d.prototype.signature = .error fault) :
    d.lower s = .error ⟨fault, d.prototype.pos⟩ s := by
  have hdef : isDefined d.prototype.name s = .ok false s := by rw [← hd]; rfl
  have herr : register d.prototype s = .error ⟨fault, d.prototype.pos⟩ s := by
    simp only [register, hreg]
  exact (bind_of_ok hdef).trans (bind_of_error herr)

/-- All that lowering a definition can do. -/
theorem Definition.lower_cases (d : Definition) (s : Lowering Recorder) :
    (∃ e, d.lower s = .error e s) ∨
    ∃ (S : Site) (F : Func) (B : Body), d.Begun s S F ∧ S.Follows (Body.entry F) B ∧
      ((d.lowerBody S.id S.start = .ok () (S.state B) ∧
        d.lower s = .ok S.id
          { (S.state B).rest with signatures := S.start.signatures.setDefined d.prototype.name }) ∨
      ∃ e, d.lower s = .error e { (S.state B).rest with
        target := if (s.target.find? d.prototype.name).isSome then (S.recorder B).clearBody S.id
          else (S.recorder B).discard S.id }) := by
  cases hd : s.signatures.isDefined d.prototype.name with
  | true => exact .inl ⟨_, d.lower_redefined hd⟩
  | false =>
    cases hreg : s.signatures.register d.prototype.name d.prototype.signature with
    | error fault => exact .inl ⟨_, d.lower_conflicting hd hreg⟩
    | ok Γ =>
      obtain ⟨S, F, B, hbegun, hfollows, hok | ⟨e, -, he⟩⟩ := d.lower_begun hd hreg
      · exact .inr ⟨S, F, B, hbegun, hfollows, .inl hok⟩
      · exact .inr ⟨S, F, B, hbegun, hfollows, .inr ⟨e, he⟩⟩

theorem Definition.begun_of_lower {d : Definition} {s s' : Lowering Recorder} {f : FunctionId}
    (h : d.lower s = .ok f s') :
    ∃ (S : Site) (F : Func) (B : Body), d.Begun s S F ∧
      d.lowerBody S.id S.start = .ok () (S.state B) ∧ f = S.id ∧
      s' = { (S.state B).rest with
        signatures := S.start.signatures.setDefined d.prototype.name } := by
  rcases d.lower_cases s with ⟨e, he⟩ | ⟨S, F, B, hbegun, -, ⟨hbody, hlower⟩ | ⟨e, he⟩⟩
  · rw [h] at he
    cases he
  · rw [h] at hlower
    cases hlower
    exact ⟨S, F, B, hbegun, hbody, rfl, rfl⟩
  · rw [h] at he
    cases he

/-- The function that an item is about. -/
def Item.name : Item → String
  | .external p => p.name
  | .definition d => d.prototype.name

/-- All that lowering an item can do. It is refused, or makes a signature known, or goes through a
body, which then stays or is taken back. -/
inductive Item.Effect (s : Lowering Recorder) :
    Item → EStateM.Result LowerError (Lowering Recorder) Unit → Prop
  | refused {item : Item} {e : LowerError}
      (h : e.fault = .functionRedefined item.name ∨ e.fault = .conflictingPrototype item.name) :
        Effect s item (.error e s)
  | known {p : Prototype} {Γ : Signatures} (h : s.signatures.register p.name p.signature = .ok Γ) :
      Effect s (.external p) (.ok () { s with signatures := Γ })
  | lowered {d : Definition} {S : Site} {F : Func} {B : Body} (hb : d.Begun s S F)
      (hB : S.Follows (Body.entry F) B)
      (hbody : d.lowerBody S.id S.start = .ok () (S.state B)) :
      Effect s (.definition d)
        (.ok () { (S.state B).rest with
          signatures := S.start.signatures.setDefined d.prototype.name })
  | abandoned {d : Definition} {S : Site} {F : Func} {B : Body} {e : LowerError}
      (hb : d.Begun s S F)
      (hB : S.Follows (Body.entry F) B) (hbody : d.lowerBody S.id S.start = .error e (S.state B)) :
      Effect s (.definition d) (.error e { (S.state B).rest with
        target := if (s.target.find? d.prototype.name).isSome then (S.recorder B).clearBody S.id
          else (S.recorder B).discard S.id })

theorem Item.lower_effect (item : Item) (s : Lowering Recorder) : item.Effect s (item.lower s) := by
  cases item with
  | external p =>
    simp only [Item.lower, register]
    cases hreg : s.signatures.register p.name p.signature with
    | ok Γ => exact .known hreg
    | error fault => exact .refused (.inr (Signatures.eq_of_register hreg))
  | definition d =>
    simp only [Item.lower]
    cases hd : s.signatures.isDefined d.prototype.name with
    | true =>
      rw [bind_of_error (d.lower_redefined hd)]
      exact .refused (.inl rfl)
    | false =>
      cases hreg : s.signatures.register d.prototype.name d.prototype.signature with
      | error fault =>
        rw [bind_of_error (d.lower_conflicting hd hreg)]
        exact .refused (.inr (Signatures.eq_of_register hreg))
      | ok Γ =>
        obtain ⟨S, F, B, hb, hB, ⟨hbody, hok⟩ | ⟨e, hbody, herr⟩⟩ := d.lower_begun hd hreg
        · rw [bind_of_ok hok]
          exact .lowered hb hB hbody
        · rw [bind_of_error herr]
          exact .abandoned hb hB hbody

variable {S : Site} {B B' : Body}

theorem Site.state_injective (h : S.state B = S.state B') : B = B' := by
  obtain ⟨F, b, sc, ts, ds⟩ := B
  obtain ⟨F', b', sc', ts', ds'⟩ := B'
  have hrec : S.recorder ⟨F, b, sc, ts, ds⟩ = S.recorder ⟨F', b', sc', ts', ds'⟩ :=
    congrArg Lowering.target h
  have hF : some F = some F' := by
    rw [← S.function?_recorder ⟨F, b, sc, ts, ds⟩, hrec, S.function?_recorder]
  have hb := congrArg Recorder.position hrec
  have hds := congrArg Recorder.functions hrec
  cases hF
  have hslot : Function.Injective Recorder.slot := by
    rintro ⟨x, s⟩ ⟨y, t⟩ he
    simpa [Recorder.slot] using he
  have hds' : ds = ds' := List.map_injective_iff.2 hslot (List.append_cancel_left hds)
  have hsc : sc = sc' := congrArg Lowering.scopes h
  have hts : ts = ts' := congrArg Lowering.temporaries h
  simp only [Site.recorder, Option.some.injEq, BlockRef.mk.injEq, Handle.mk.injEq, true_and] at hb
  rw [hb, hds', hsc, hts]

theorem Site.function?_cases {id : FunctionId} {G : Func}
    (h : (S.recorder B).function? id = some G) :
    (id = S.id ∧ G = B.func) ∨ (id ≠ S.id ∧ S.start.target.function? id = some G) ∨
      ∃ d ∈ B.declared, G = ⟨d.1, d.2, [], 0⟩ := by
  by_cases hid : id = S.id
  · subst hid
    rw [S.function?_recorder, Option.some.injEq] at h
    exact .inl ⟨rfl, h.symm⟩
  · have hindex : S.id.index ≠ id.index := fun he => hid (by cases id; cases hS : S.id; simp_all)
    rw [Recorder.function?, Option.join_eq_some_iff] at h
    simp only [Site.recorder] at h
    by_cases hlt : id.index < S.start.target.functions.length
    · rw [List.getElem?_append_left (by simpa using hlt), List.getElem?_set_ne hindex] at h
      exact .inr (.inl ⟨hid, by rw [Recorder.function?, h]; rfl⟩)
    · rw [List.getElem?_append_right (by simpa using hlt)] at h
      obtain ⟨d, hd, hG⟩ := List.mem_map.1 (List.mem_of_getElem? h)
      exact .inr (.inr ⟨d, hd, (Option.some.inj hG).symm⟩)

theorem Site.function?_other {id : FunctionId} {G : Func} (h : S.start.target.function? id = some G)
    (hid : id ≠ S.id) :
    (S.recorder B).function? id = some G := by
  have hindex : S.id.index ≠ id.index := fun he => hid (by cases id; cases hS : S.id; simp_all)
  rw [Recorder.function?, Option.join_eq_some_iff] at h ⊢
  have hlt := (List.getElem?_eq_some_iff.1 h).1
  simp only [Site.recorder]
  rwa [List.getElem?_append_left (by simpa using hlt), List.getElem?_set_ne hindex]

namespace Definition.Begun

variable {d : Definition} {s : Lowering Recorder} {F : Func}

/-- Beside the function itself nothing was declared at the site. -/
theorem function?_other (h : d.Begun s S F) {id : FunctionId} (hid : id ≠ S.id) :
    S.start.target.function? id = s.target.function? id := by
  rcases h.place with ⟨-, ht⟩ | ⟨-, hS, ht⟩
  · rw [ht]
  · rw [ht]
    rw [hS] at hid
    simp only [Recorder.function?, Recorder.declare]
    have hne : id.index ≠ s.target.functions.length := fun he => hid (by cases id; simp_all)
    by_cases hlt : id.index < s.target.functions.length
    · rw [List.getElem?_append_left hlt]
    · rw [List.getElem?_eq_none (by simp; omega), List.getElem?_eq_none (by omega)]

theorem find?_signatures (h : d.Begun s S F) (name : String) :
    S.start.signatures.find? name =
      if name = d.prototype.name then some d.prototype.signature else s.signatures.find? name :=
  Signatures.find?_register h.registered name

theorem find?_mono (h : d.Begun s S F) {name : String} {signature : Signature}
    (hs : s.signatures.find? name = some signature) :
    S.start.signatures.find? name = some signature :=
  Signatures.find?_register_mono h.registered hs

theorem defined (h : d.Begun s S F) : S.start.signatures.defined = s.signatures.defined :=
  Signatures.defined_register h.registered

theorem name (h : d.Begun s S F) : F.name = d.prototype.name := by
  have hfunc := h.func
  rcases h.place with ⟨hf, ht⟩ | ⟨-, hS, ht⟩
  · obtain ⟨F', hF', hname⟩ := Recorder.function?_of_find? hf
    rw [ht, hF', Option.some.injEq] at hfunc
    rw [← hfunc, hname]
  · rw [ht, hS] at hfunc
    simp only [Recorder.function?, Recorder.declare, List.getElem?_concat_length, Option.join_some,
      Option.some.injEq] at hfunc
    rw [← hfunc]

/-- A function that is found under the name of a definition is the one that its body is lowered
into. -/
theorem of_find? (h : d.Begun s S F) {id : FunctionId}
    (hfind : s.target.find? d.prototype.name = some id) :
    S.id = id ∧ s.target.function? id = some F := by
  rcases h.place with ⟨hplace, ht⟩ | ⟨hplace, -⟩
  · obtain rfl : S.id = id := Option.some.inj (hplace.symm.trans hfind)
    exact ⟨rfl, ht ▸ h.func⟩
  · rw [hplace] at hfind
    cases hfind

/-- A finished body has its blocks behind those that the function had before. -/
theorem blocks (h : d.Begun s S F) (hbody : d.lowerBody S.id S.start = .ok () (S.state B)) :
    ∃ more, more ≠ [] ∧ B.func.blocks = F.blocks ++ more := by
  obtain ⟨B', he, hlow⟩ :=
    Definition.lowerBody_code h.func h.scopes h.temporaries h.ret hbody
  obtain rfl := Site.state_injective he
  have hgrows : Func.Grows F.blocks.length (F.addBlock "entry") B.func := hlow.becomes.grows
  have hlength : F.blocks.length + 1 ≤ B.func.blocks.length := by
    simpa [Func.addBlock] using hgrows.length
  refine ⟨B.func.blocks.drop F.blocks.length, by simp; omega, ?_⟩
  have htake : B.func.blocks.take F.blocks.length = F.blocks := by
    apply List.ext_getElem?
    intro i
    rw [List.getElem?_take]
    split
    · rename_i hi
      rw [hgrows.others i (by simp [Func.addBlock]; omega) (Nat.ne_of_lt hi), Func.addBlock,
        List.getElem?_append_left hi]
    · rename_i hi
      rw [List.getElem?_eq_none (Nat.le_of_not_lt hi)]
  rw [← htake, List.length_take, Nat.min_eq_left (by omega), List.take_append_drop]

end Definition.Begun

/-- The code of a function is that of a definition, under signatures that still hold. -/
def Signatures.Defines (Γ : Signatures) (F : Func) : Prop :=
  ∃ d Γ₀, d.prototype.signature = F.signature ∧ DefinitionCode Γ₀ F d 0 (F.codeAt 0) ∧
    ∀ name signature, Γ₀.find? name = some signature → Γ.find? name = some signature

/-- A function of the target fits what is known: it has its signature, what it calls is there, and
it is bare or has the code of a definition. -/
structure Lowering.Fits (s : Lowering Recorder) (F : Func) : Prop where
  known : s.signatures.find? F.name = some F.signature
  calls : ∀ i ∈ F.code, ∀ c, i.callee? = some c → c ∈ s.target.names
  bare : F.name ∉ s.signatures.defined → F.blocks = [] ∧ F.registers = 0
  body : F.blocks ≠ [] → s.signatures.Defines F

def Lowering.Coherent (s : Lowering Recorder) : Prop :=
  ∀ id F, s.target.function? id = some F → s.Fits F

namespace Lowering

variable {d : Definition} {s s' : Lowering Recorder} {F : Func}

/-- Nothing that was known or there is lost. -/
structure Extends (s s' : Lowering Recorder) : Prop where
  known : ∀ name signature,
    s.signatures.find? name = some signature → s'.signatures.find? name = some signature
  defined : ∀ name ∈ s.signatures.defined, name ∈ s'.signatures.defined
  names : ∀ name ∈ s.target.names, name ∈ s'.target.names

theorem Fits.mono (h : s.Fits F) (hs : s.Extends s') : s'.Fits F where
  known := hs.known _ _ h.known
  calls i hi c hc := hs.names c (h.calls i hi c hc)
  bare hname := h.bare fun hm => hname (hs.defined _ hm)
  body hblocks := by
    obtain ⟨d, Γ, hd, hcode, hmono⟩ := h.body hblocks
    exact ⟨d, Γ, hd, hcode, fun name signature hf => hs.known _ _ (hmono name signature hf)⟩

theorem fits_bare {name : String} {signature : Signature}
    (h : s.signatures.find? name = some signature) :
    s.Fits ⟨name, signature, [], 0⟩ :=
  ⟨h, by simp [Func.code], fun _ => ⟨rfl, rfl⟩, fun hne => absurd rfl hne⟩

theorem Coherent.extend (h : s.Coherent) (hs : s.Extends s')
    (hnew : ∀ id F, s'.target.function? id = some F → s.target.function? id = some F ∨ s'.Fits F) :
    s'.Coherent := by
  intro id F hF
  rcases hnew id F hF with hold | hfits
  · exact (h id F hold).mono hs
  · exact hfits

theorem coherent_empty : (Lowering.ofTarget Recorder.empty).Coherent := by
  intro id F hF
  have hnone : Recorder.empty.function? id = none := rfl
  exact absurd (hnone.symm.trans hF) (by simp)

/-- A definition is lowered into a function that has no body yet. -/
theorem Coherent.begun (h : s.Coherent) (hb : d.Begun s S F) :
    F.blocks = [] ∧ F.registers = 0 ∧ F.signature = d.prototype.signature := by
  have hfunc := hb.func
  rcases hb.place with ⟨hf, ht⟩ | ⟨-, hS, ht⟩
  · rw [ht] at hfunc
    have hfits := h _ _ hfunc
    have hbare := hfits.bare (by simpa [hb.name, Signatures.isDefined] using hb.undefined)
    refine ⟨hbare.1, hbare.2, ?_⟩
    have hknown := hb.find?_mono hfits.known
    rw [hb.find?_signatures, hb.name, if_pos rfl, Option.some.injEq] at hknown
    exact hknown.symm
  · rw [ht, hS] at hfunc
    simp only [Recorder.function?, Recorder.declare, List.getElem?_concat_length, Option.join_some,
      Option.some.injEq] at hfunc
    rw [← hfunc]
    exact ⟨rfl, rfl, rfl⟩

theorem mem_names_of_begun (hb : d.Begun s S F) {r : Recorder} {name : String}
    (hname : name ∈ s.target.names)
    (hother : ∀ id G, id ≠ S.id → S.start.target.function? id = some G → r.function? id = some G)
    (hself : s.target.find? d.prototype.name = some S.id → d.prototype.name ∈ r.names) :
    name ∈ r.names := by
  obtain ⟨id, G, hG, rfl⟩ := Recorder.mem_names.1 hname
  by_cases hid : id = S.id
  · subst hid
    rcases hb.place with ⟨hf, ht⟩ | ⟨-, hS, -⟩
    · have hfunc := hb.func
      rw [ht, hG, Option.some.injEq] at hfunc
      rw [hfunc, hb.name]
      exact hself hf
    · rw [hS, Recorder.function?, List.getElem?_eq_none le_rfl] at hG
      cases hG
  · rw [← hb.function?_other hid] at hG
    exact Recorder.mem_names.2 ⟨id, G, hother id G hid hG, rfl⟩

theorem mem_names_recorder (hb : d.Begun s S F) (hB : S.Follows (Body.entry F) B) :
    d.prototype.name ∈ (S.recorder B).names :=
  Recorder.mem_names.2 ⟨S.id, B.func, S.function?_recorder B, hB.name.trans hb.name⟩

/-- A function of a site is the one that is lowered, an earlier one, or one that was declared on the
way. -/
theorem function?_of_follows (hb : d.Begun s S F) (hB : S.Follows (Body.entry F) B)
    {id : FunctionId} {G : Func} (hG : (S.recorder B).function? id = some G) :
    (id = S.id ∧ G = B.func) ∨ (id ≠ S.id ∧ s.target.function? id = some G) ∨
      ∃ name signature,
        G = ⟨name, signature, [], 0⟩ ∧ S.start.signatures.find? name = some signature := by
  rcases Site.function?_cases hG with hself | ⟨hid, hG⟩ | ⟨e, he, rfl⟩
  · exact .inl hself
  · exact .inr (.inl ⟨hid, hb.function?_other hid ▸ hG⟩)
  · obtain ⟨ds, hds, hknown⟩ := hB.declared
    rw [hds] at he
    exact .inr (.inr ⟨e.1, e.2, rfl, hknown e he⟩)

theorem Coherent.lowered (h : s.Coherent) (hb : d.Begun s S F) (hB : S.Follows (Body.entry F) B)
    (hbody : d.lowerBody S.id S.start = .ok () (S.state B)) :
    Coherent
      { (S.state B).rest with signatures := S.start.signatures.setDefined d.prototype.name } := by
  obtain ⟨B', he, hlow⟩ := Definition.lowerBody_code hb.func hb.scopes hb.temporaries hb.ret hbody
  obtain rfl := Site.state_injective he
  obtain ⟨hblocks, hregs, hsig⟩ := h.begun hb
  have hlinked : S.Linked B := hlow.linked fun i hi => by
    simp [Body.entry, Func.addBlock, Func.code, hblocks] at hi
  have hcode := hlow.code B.func (.refl _)
  rw [hblocks, hregs] at hcode
  refine h.extend ⟨fun _ _ hf => hb.find?_mono hf, ?_, ?_⟩ fun id G hG => ?_
  · intro name hname
    rw [← hb.defined] at hname
    exact List.mem_cons_of_mem _ hname
  · intro name hname
    exact mem_names_of_begun hb hname (fun id G hid hG => Site.function?_other hG hid) fun _ =>
      mem_names_recorder hb hB
  · rcases function?_of_follows hb hB hG with ⟨rfl, rfl⟩ | ⟨-, hG⟩ | ⟨name, signature, rfl, hknown⟩
    · have hname : B.func.name = d.prototype.name := hB.name.trans hb.name
      have hsignature : B.func.signature = d.prototype.signature := hB.signature.trans hsig
      refine .inr ⟨?_, hlinked, fun hnot => ?_,
        fun _ => ⟨d, _, hsignature.symm, hcode, fun _ _ hf => hf⟩⟩
      · rw [hname, hsignature]
        exact (hb.find?_signatures _).trans (if_pos rfl)
      · rw [hname] at hnot
        exact absurd List.mem_cons_self hnot
    · exact .inl hG
    · exact .inr (fits_bare hknown)

/-- A body that is taken back leaves its function bare, or none if there was none. -/
theorem Coherent.restored (h : s.Coherent) (hb : d.Begun s S F) (hB : S.Follows (Body.entry F) B)
    {r : Recorder} (hother : ∀ id, id ≠ S.id → r.function? id = (S.recorder B).function? id)
    (hself : r.function? S.id = some ⟨d.prototype.name, d.prototype.signature, [], 0⟩ ∨
      (r.function? S.id = none ∧ s.target.find? d.prototype.name = none)) :
    Coherent { (S.state B).rest with target := r } := by
  refine h.extend ⟨fun _ _ hf => hb.find?_mono hf, fun name hname => hb.defined ▸ hname,
    fun name hname => ?_⟩ fun id G hG => ?_
  · refine mem_names_of_begun hb hname
      (fun id G hid hG => (hother id hid).trans (Site.function?_other hG hid)) fun hf => ?_
    rcases hself with hself | ⟨-, hnone⟩
    · exact Recorder.mem_names.2 ⟨S.id, _, hself, rfl⟩
    · rw [hf] at hnone
      cases hnone
  · have hG : r.function? id = some G := hG
    by_cases hid : id = S.id
    · subst hid
      rcases hself with hself | ⟨hself, -⟩
      · rw [hself, Option.some.injEq] at hG
        exact .inr (hG ▸ fits_bare ((hb.find?_signatures _).trans (if_pos rfl)))
      · rw [hself] at hG
        cases hG
    · rw [hother id hid] at hG
      rcases function?_of_follows hb hB hG with ⟨rfl, -⟩ | ⟨-, hG⟩ | ⟨name, signature, rfl, hknown⟩
      · contradiction
      · exact .inl hG
      · exact .inr (fits_bare hknown)

/-- Where a failed body is taken back, only its own function differs from what the body left
behind. -/
theorem function?_failed (hb : d.Begun s S F) (hsig : F.signature = d.prototype.signature)
    (hB : S.Follows (Body.entry F) B) {r : Recorder}
    (hr : r = if (s.target.find? d.prototype.name).isSome then (S.recorder B).clearBody S.id
      else (S.recorder B).discard S.id) :
    (∀ id, id ≠ S.id → r.function? id = (S.recorder B).function? id) ∧
      ((r.function? S.id = some ⟨d.prototype.name, d.prototype.signature, [], 0⟩ ∧
          s.target.find? d.prototype.name = some S.id) ∨
        (r.function? S.id = none ∧ s.target.find? d.prototype.name = none)) := by
  subst hr
  split
  · have hclear : ∀ id, ((S.recorder B).clearBody S.id).function? id =
        if S.id = id then ((S.recorder B).function? id).map fun F =>
          { F with blocks := [], registers := 0 }
        else (S.recorder B).function? id :=
      fun id => Recorder.function?_modifyFunction _ _ _ _
    rename_i hsome
    have hplace : s.target.find? d.prototype.name = some S.id := by
      rcases hb.place with ⟨hf, -⟩ | ⟨hf, -⟩
      · exact hf
      · simp [hf] at hsome
    refine ⟨fun id hid => by rw [hclear, if_neg (Ne.symm hid)], .inl ⟨?_, hplace⟩⟩
    rw [hclear, if_pos rfl, S.function?_recorder, Option.map_some, hB.name, hB.signature]
    exact congrArg some (by rw [← hsig, ← hb.name]; rfl)
  · rename_i hnone
    refine ⟨fun id hid => ?_, .inr ⟨?_, by simpa using hnone⟩⟩
    · have hindex : S.id.index ≠ id.index := fun he => hid (by cases id; cases hS : S.id; simp_all)
      simp only [Recorder.discard, Recorder.leave, Recorder.function?]
      rw [List.getElem?_set_ne hindex]
    · simp only [Recorder.discard, Recorder.leave, Recorder.function?, List.getElem?_set_self']
      cases (S.recorder B).functions[S.id.index]? <;> rfl

theorem Coherent.failed (h : s.Coherent) (hb : d.Begun s S F) (hB : S.Follows (Body.entry F) B) :
    Coherent { (S.state B).rest with
      target := if (s.target.find? d.prototype.name).isSome then (S.recorder B).clearBody S.id
        else (S.recorder B).discard S.id } := by
  obtain ⟨hother, hself⟩ := function?_failed hb (h.begun hb).2.2 hB rfl
  exact h.restored hb hB hother (hself.imp_left And.left)

theorem Coherent.external (h : s.Coherent) {p : Prototype} {Γ : Signatures}
    (hreg : s.signatures.register p.name p.signature = .ok Γ) :
    Coherent { s with signatures := Γ } :=
  h.extend ⟨fun _ _ hf => Signatures.find?_register_mono hreg hf,
    fun _ hx => Signatures.defined_register hreg ▸ hx,
    fun _ hx => hx⟩ fun _ _ hF => .inl hF

/-- The state behind an item, whether it was lowered or not. -/
def after (item : Item) (s : Lowering Recorder) : Lowering Recorder :=
  match item.lower s with
  | .ok _ s' => s'
  | .error _ s' => s'

theorem Coherent.after (h : s.Coherent) (item : Item) : (Lowering.after item s).Coherent := by
  have heffect := item.lower_effect s
  unfold Lowering.after
  generalize item.lower s = r at heffect ⊢
  cases heffect with
  | refused => exact h
  | known hreg => exact h.external hreg
  | lowered hb hB hbody => exact h.lowered hb hB hbody
  | abandoned hb hB => exact h.failed hb hB

/-- What each item keeps is kept by all items of a source. -/
theorem itemsFrom_induction {P : Lowering Recorder → Prop}
    (hitem : ∀ s item, P s → P (Lowering.after item s)) (n : Nat) (c : Cursor)
    (s : Lowering Recorder) (h : P s) : P (itemsFrom (fun _ t => t) n c s).2 := by
  induction n generalizing c s with
  | zero => exact h
  | succ n ih =>
    unfold itemsFrom
    split
    · exact h
    · cases Item.parse c with
      | error e c' => exact ih _ _ h
      | ok item c' =>
        have hafter := hitem s item h
        unfold Lowering.after at hafter
        simp only
        cases hs : item.lower s with
        | ok a s' =>
          rw [hs] at hafter
          exact ih _ _ hafter
        | error e s' =>
          rw [hs] at hafter
          exact ih _ _ hafter

end Lowering

/-- A source compiles to the target of a coherent state. -/
theorem compile_coherent (source : String) :
    ∃ s : Lowering Recorder, s.Coherent ∧ (compile source Recorder.empty).2 = s.target :=
  ⟨(Lowering.source (fun _ t => t) source (.ofTarget Recorder.empty)).2,
    Lowering.itemsFrom_induction (fun _ item h => h.after item) _ _ _ Lowering.coherent_empty, rfl⟩

theorem Recorder.mem_toModule {r : Recorder} {F : Func} :
    F ∈ r.toModule.functions ↔ ∃ id, r.function? id = some F := by
  simp only [toModule, List.mem_filterMap, id_eq, exists_eq_right]
  constructor
  · intro h
    obtain ⟨i, hi⟩ := List.getElem?_of_mem h
    exact ⟨⟨i⟩, by simp [function?, hi]⟩
  · rintro ⟨⟨i⟩, h⟩
    rw [function?, Option.join_eq_some_iff] at h
    exact List.mem_of_getElem? h

/-- A callee is in the module, and whichever function of its name is found there has the known
signature. -/
theorem Lowering.Coherent.callee {s : Lowering Recorder} (hs : s.Coherent) {id : FunctionId}
    {F : Func} {dst : Reg} {c : String} {args : List Value} {signature : Signature}
    (hF : s.target.function? id = some F) (hcall : .call dst c args ∈ F.code)
    (hsig : s.signatures.find? c = some signature) :
    ∃ G, s.target.toModule.function? c = some G ∧ G.signature = signature := by
  obtain ⟨id', G, hG, hname⟩ := Recorder.mem_names.1 ((hs id F hF).calls _ hcall c rfl)
  have hsome : (s.target.toModule.function? c).isSome :=
    List.find?_isSome.2 ⟨G, Recorder.mem_toModule.2 ⟨id', hG⟩, by simpa using hname⟩
  obtain ⟨H, hH⟩ := Option.isSome_iff_exists.1 hsome
  have hHname : H.name = c := by simpa using List.find?_some hH
  obtain ⟨id'', hid''⟩ := Recorder.mem_toModule.1 (List.mem_of_find?_eq_some hH)
  have hknown := (hs id'' H hid'').known
  rw [hHname, hsig, Option.some.injEq] at hknown
  exact ⟨H, hH, hknown.symm⟩

/-- Each body of a compiled module is that of a definition, and the signatures it was lowered under
are those of the functions that it calls. -/
theorem compile_defines (source : String) {F : Func}
    (hF : F ∈ (compile source Recorder.empty).2.toModule.functions) (hbody : F.blocks ≠ []) :
    ∃ d Γ, d.prototype.signature = F.signature ∧ DefinitionCode Γ F d 0 (F.codeAt 0) ∧
      ∀ dst c args signature, .call dst c args ∈ F.code → Γ.find? c = some signature →
        ∃ G, (compile source Recorder.empty).2.toModule.function? c = some G ∧
        G.signature = signature := by
  obtain ⟨s, hs, htarget⟩ := compile_coherent source
  rw [htarget] at hF ⊢
  obtain ⟨id, hid⟩ := Recorder.mem_toModule.1 hF
  obtain ⟨d, Γ, hd, hcode, hmono⟩ := (hs id F hid).body hbody
  exact ⟨d, Γ, hd, hcode,
    fun dst c args signature hcall hsig => hs.callee hid hcall (hmono c signature hsig)⟩

end ImpFront
