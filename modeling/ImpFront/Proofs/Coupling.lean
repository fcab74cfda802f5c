import Mathlib
import ImpFront.Proofs.WellTyped

/-! Signatures and target of a session belong together. Whatever items were lowered or rejected, the
functions of the target have distinct names and the signatures that are known for them, exactly the
defined ones have bodies, and every call leads to a function of the module. -/

namespace ImpFront

open Lower

namespace Recorder

variable {r : Recorder}

theorem eq_of_name_eq (h : r.names.Nodup) {id id' : FunctionId} {F F' : Func}
    (hF : r.function? id = some F) (hF' : r.function? id' = some F') (hname : F.name = F'.name) :
    id = id' := by
  obtain ⟨i⟩ := id
  obtain ⟨j⟩ := id'
  rw [function?, Option.join_eq_some_iff, List.getElem?_eq_some_iff] at hF hF'
  obtain ⟨hi, hF⟩ := hF
  obtain ⟨hj, hF'⟩ := hF'
  have hapart := List.pairwise_iff_getElem.1 (List.pairwise_filterMap.1 h)
  have hne : ∀ a b (ha : a < r.functions.length) (hb : b < r.functions.length) (G G' : Func),
      a < b →
      r.functions[a] = some G → r.functions[b] = some G' → G.name ≠ G'.name := by
    intro a b ha hb G G' hab hG hG'
    exact hapart a b ha hb hab _ (by rw [hG]; rfl) _ (by rw [hG']; rfl)
  rcases Nat.lt_trichotomy i j with hlt | rfl | hgt
  · exact absurd hname (hne i j hi hj F F' hlt hF hF')
  · rfl
  · exact absurd hname.symm (hne j i hj hi F' F hgt hF' hF)

theorem names_discard_sublist (r : Recorder) (f : FunctionId) :
    (r.discard f).names.Sublist r.names := by
  have hset : ∀ (l : List (Option Func)) (i : Nat),
      ((l.set i none).filterMap (Option.map Func.name)).Sublist (l.filterMap
        (Option.map Func.name)) := by
    intro l
    induction l with
    | nil => exact fun _ => .slnil
    | cons x l ih =>
      intro i
      cases i with
      | zero =>
        have hskip :
            (none :: l).filterMap (Option.map Func.name) = l.filterMap (Option.map Func.name) := rfl
        rw [List.set_cons_zero, hskip]
        exact (List.sublist_cons_self x l).filterMap _
      | succ i =>
        cases x with
        | none => exact ih i
        | some F => exact (ih i).cons_cons F.name
  exact hset _ _

end Recorder

variable {S : Site} {B : Body} {d : Definition} {s : Lowering Recorder} {F : Func}

/-- A body that is only begun has not changed the names. -/
theorem Site.names_entry (hF : S.start.target.function? S.id = some F) :
    (S.recorder (Body.entry F)).names = S.start.target.names := by
  rw [Recorder.function?, Option.join_eq_some_iff] at hF
  have hnames : ∀ l : List (Option Func), l.filterMap (Option.map Func.name) =
      (l.map (Option.map Func.name)).filterMap fun x => x := by
    intro l
    rw [List.filterMap_map]
    rfl
  have hset : (S.start.target.functions.map (Option.map Func.name)).set S.id.index (some F.name) =
      S.start.target.functions.map (Option.map Func.name) := by
    have hsome : (S.start.target.functions.map (Option.map Func.name))[S.id.index]? =
        some (some F.name) := by
      rw [List.getElem?_map, hF]
      rfl
    obtain ⟨hlt, hget⟩ := List.getElem?_eq_some_iff.1 hsome
    rw [← hget, List.set_getElem_self]
  show List.filterMap _ (_ ++ []) = List.filterMap _ _
  rw [List.append_nil, hnames, hnames, List.map_set]
  exact congrArg _ hset

namespace Definition.Begun

theorem nodup_entry (hb : d.Begun s S F) (h : s.target.names.Nodup) :
    (S.recorder (Body.entry F)).names.Nodup := by
  rw [Site.names_entry hb.func]
  rcases hb.place with ⟨-, ht⟩ | ⟨hf, -, ht⟩
  · rwa [ht]
  · have hnames : (s.target.declare d.prototype.name d.prototype.signature).2.names =
        s.target.names ++ [d.prototype.name] := by
      simp [Recorder.declare, Recorder.names]
    rw [ht, hnames]
    refine List.nodup_append.2 ⟨h, List.nodup_singleton _, ?_⟩
    rintro name hin _ hnew rfl
    obtain rfl := List.mem_singleton.1 hnew
    exact Recorder.find?_eq_none.1 hf hin

/-- Whichever way its body ends, a definition has declared only its callees, each of them once. -/
theorem adds (hb : d.Begun s S F) (h : d.lowerBody S.id S.start = .ok () (S.state B) ∨
    ∃ e, d.lowerBody S.id S.start = .error e (S.state B)) : S.Adds d.callees (Body.entry F) B := by
  have hosts : S.Hosts F := ⟨hb.func, hb.scopes, hb.temporaries⟩
  obtain ⟨B', _, hB', -, hend⟩ := Definition.lowerBody_twins (d := d) hosts hosts (.refl S _)
  rcases h with hok | ⟨e, herr⟩ <;> rcases hend with ⟨hok', -⟩ | ⟨e', herr', -⟩
  · obtain rfl := Site.state_injective (EStateM.Result.ok.inj (hok.symm.trans hok')).2
    exact hB'
  · cases hok.symm.trans herr'
  · cases herr.symm.trans hok'
  · obtain rfl := Site.state_injective (EStateM.Result.error.inj (herr.symm.trans herr')).2
    exact hB'

/-- A function that the session had in the place of the definition was declared for it. -/
theorem eq_func (hb : d.Begun s S F) {G : Func} (hG : s.target.function? S.id = some G) :
    s.target.find? d.prototype.name = some S.id ∧ G = F := by
  rcases hb.place with ⟨hf, ht⟩ | ⟨-, hS, -⟩
  · have hfunc := hb.func
    rw [ht, hG, Option.some.injEq] at hfunc
    exact ⟨hf, hfunc⟩
  · rw [hS, Recorder.function?, List.getElem?_eq_none le_rfl] at hG
    cases hG

end Definition.Begun

namespace Lowering

/-- Functions are told apart by their names, defined ones have bodies, and none is being lowered. -/
structure Tidy (s : Lowering Recorder) : Prop where
  names : s.target.names.Nodup
  defined : ∀ name ∈ s.signatures.defined, ∃ id F,
    s.target.function? id = some F ∧ F.name = name ∧ F.blocks ≠ []
  idle : s.rest = s

/-- Signatures and target belong together. -/
structure Coupled (s : Lowering Recorder) : Prop extends s.Tidy where
  coherent : s.Coherent
  drafts : s.Bodies Signatures.Drafts

theorem coupled_empty : (Lowering.ofTarget Recorder.empty).Coupled where
  names := .nil
  defined _ hname := by cases hname
  idle := rfl
  coherent := coherent_empty
  drafts _ _ hF := by cases hF

/-- Beside its own function a definition changes none. -/
theorem function?_of_begun (hb : d.Begun s S F) {id : FunctionId} {G : Func} (hid : id ≠ S.id)
    (hG : s.target.function? id = some G) : (S.recorder B).function? id = some G :=
  Site.function?_other (hb.function?_other hid ▸ hG) hid

/-- A failed body changes no function that was there. -/
theorem Coupled.function?_kept (h : s.Coupled) (hb : d.Begun s S F)
    (hB : S.Adds d.callees (Body.entry F) B) {r : Recorder}
    (hr : r = if (s.target.find? d.prototype.name).isSome then (S.recorder B).clearBody S.id
      else (S.recorder B).discard S.id) {id : FunctionId} {G : Func}
        (hG : s.target.function? id = some G) :
    r.function? id = some G := by
  obtain ⟨hblocks, hregs, hsig⟩ := h.coherent.begun hb
  obtain ⟨hother, hself⟩ := function?_failed hb hsig hB.toFollows hr
  by_cases hid : id = S.id
  · subst hid
    obtain ⟨hf, rfl⟩ := hb.eq_func hG
    rcases hself with ⟨hself, -⟩ | ⟨-, hnone⟩
    · rw [hself, ← hb.name, ← hsig, ← hblocks, ← hregs]
    · rw [hf] at hnone
      cases hnone
  · rw [hother id hid]
    exact function?_of_begun hb hid hG

/-- The functions that a failed body leaves behind are bare callees of it. -/
theorem Coupled.function?_added (h : s.Coupled) (hb : d.Begun s S F)
    (hB : S.Adds d.callees (Body.entry F) B) {r : Recorder}
    (hr : r = if (s.target.find? d.prototype.name).isSome then (S.recorder B).clearBody S.id
      else (S.recorder B).discard S.id) {id : FunctionId} {G : Func} (hG : r.function? id = some G)
    (hnew : s.target.function? id = none) :
    G.blocks = [] ∧ G.registers = 0 ∧ G.name ∈ d.callees ∧ G.name ≠ d.prototype.name ∧
      s.signatures.find? G.name = some G.signature := by
  obtain ⟨hother, hself⟩ := function?_failed hb (h.coherent.begun hb).2.2 hB.toFollows hr
  have hid : id ≠ S.id := by
    rintro rfl
    rcases hself with ⟨-, hf⟩ | ⟨hnone, -⟩
    · obtain ⟨G', hG', -⟩ := Recorder.function?_of_find? hf
      cases hnew.symm.trans hG'
    · cases hnone.symm.trans hG
  rw [hother id hid] at hG
  have hname : G.name ≠ d.prototype.name := fun he =>
    hid (Recorder.eq_of_name_eq (hB.fresh (hb.nodup_entry h.names)) hG (S.function?_recorder B)
      (he.trans (hB.name.trans hb.name).symm))
  rcases Site.function?_cases hG with ⟨he, -⟩ | ⟨-, hold⟩ | ⟨e, he, rfl⟩
  · exact absurd he hid
  · rw [hb.function?_other hid, hnew] at hold
    cases hold
  · obtain ⟨ds, hds, hknown⟩ := hB.declared
    have hsig := hknown e (by simpa [Body.entry, hds] using he)
    rw [hb.find?_signatures, if_neg hname] at hsig
    refine ⟨rfl, rfl, ?_, hname, hsig⟩
    exact (hB.called e he).resolve_left (by simp [Body.entry])

theorem Coupled.failed (h : s.Coupled) (hb : d.Begun s S F)
    (hB : S.Adds d.callees (Body.entry F) B) :
    Tidy { (S.state B).rest with
      target := if (s.target.find? d.prototype.name).isSome then (S.recorder B).clearBody S.id
        else (S.recorder B).discard S.id } where
  names := by
    have hnodup := hB.fresh (hb.nodup_entry h.names)
    show (Recorder.names (if _ then _ else _)).Nodup
    split
    · have hclear : ((S.recorder B).clearBody S.id).names = (S.recorder B).names := by
        show ((S.recorder B).modifyFunction S.id _).names = _
        rw [S.modifyFunction_recorder]
        refine (Site.names_of_name_eq B _ ?_ [] ?_).trans (List.append_nil _)
        · rfl
        · exact (List.append_nil _).symm
      rwa [hclear]
    · exact hnodup.sublist (Recorder.names_discard_sublist _ _)
  defined name hname := by
    obtain ⟨id, G, hG, rfl, hne⟩ := h.defined name (hb.defined ▸ hname)
    exact ⟨id, G, h.function?_kept hb hB rfl hG, rfl, hne⟩
  idle := rfl

theorem Coupled.lowered (h : s.Coupled) (hb : d.Begun s S F)
    (hB : S.Adds d.callees (Body.entry F) B)
    (hbody : d.lowerBody S.id S.start = .ok () (S.state B)) :
    Tidy { (S.state B).rest with
      signatures := S.start.signatures.setDefined d.prototype.name } where
  names := hB.fresh (hb.nodup_entry h.names)
  defined name hname := by
    rcases List.mem_cons.1 hname with rfl | hname
    · obtain ⟨B', he, hlow⟩ :=
        Definition.lowerBody_code hb.func hb.scopes hb.temporaries hb.ret hbody
      obtain rfl := Site.state_injective he
      exact ⟨S.id, B.func, S.function?_recorder B, hB.name.trans hb.name,
        List.ne_nil_of_length_pos (Nat.zero_lt_of_lt hlow.becomes.block)⟩
    · obtain ⟨id, G, hG, rfl, hne⟩ := h.defined name (hb.defined ▸ hname)
      -- the function was bare until now, so it is not one that was defined before
      have hid : id ≠ S.id := by
        rintro rfl
        obtain ⟨-, rfl⟩ := hb.eq_func hG
        exact hne (h.coherent.begun hb).1
      exact ⟨id, G, function?_of_begun hb hid hG, rfl, hne⟩
  idle := rfl

theorem Coupled.tidy_after (h : s.Coupled) (item : Item) : (Lowering.after item s).Tidy := by
  have heffect := item.lower_effect s
  unfold Lowering.after
  generalize item.lower s = r at heffect ⊢
  cases heffect with
  | refused => exact h.toTidy
  | @known p Γ hreg =>
    refine ⟨h.names, fun name hname => h.defined name (Signatures.defined_register hreg ▸ hname),
      ?_⟩
    exact congrArg (fun t => { t with signatures := Γ }) h.idle
  | lowered hb _ hbody => exact h.lowered hb (hb.adds (.inl hbody)) hbody
  | abandoned hb _ hbody => exact h.failed hb (hb.adds (.inr ⟨_, hbody⟩))

theorem Coupled.after (h : s.Coupled) (item : Item) : (Lowering.after item s).Coupled where
  toTidy := h.tidy_after item
  coherent := h.coherent.after item
  drafts := h.drafts.after Signatures.stable_drafts (fun _ _ _ _ _ hs hb hrun => hb.drafts hs hrun)
    h.coherent item

/-- What is known of a function stays known. -/
theorem find?_after {name : String} {signature : Signature}
    (h : s.signatures.find? name = some signature) (item : Item) :
    (Lowering.after item s).signatures.find? name = some signature := by
  have heffect := item.lower_effect s
  unfold Lowering.after
  generalize item.lower s = r at heffect ⊢
  cases heffect with
  | refused => exact h
  | known hreg => exact Signatures.find?_register_mono hreg h
  | lowered hb | abandoned hb => exact hb.find?_mono h

/-- What each item keeps is kept by a list of items. -/
theorem items_induction {P : Lowering Recorder → Prop}
    (hitem : ∀ s item, P s → P (Lowering.after item s)) (items : List Item) (s : Lowering Recorder)
    (h : P s) : P (Lowering.items items s).2 := by
  induction items generalizing s with
  | nil => exact h
  | cons item items ih =>
    have hafter := hitem s item h
    unfold Lowering.after at hafter
    unfold Lowering.items
    cases hs : item.lower s with
    | ok a s' =>
      rw [hs] at hafter
      exact ih s' hafter
    | error e s' =>
      rw [hs] at hafter
      exact ih s' hafter

/-- The state of a session that has lowered the items, some of them perhaps without success, into an
empty target. -/
def session (items : List Item) : Lowering Recorder :=
  (Lowering.items items (.ofTarget Recorder.empty)).2

theorem coupled_session (items : List Item) : (session items).Coupled :=
  items_induction (fun _ item h => h.after item) items _ coupled_empty

/-- A call passes as many arguments as its callee has parameters. -/
theorem Coupled.callee (h : s.Coupled) {id : FunctionId} {F : Func} {dst : Reg} {c : String}
    {args : List Value} (hF : s.target.function? id = some F) (hcall : .call dst c args ∈ F.code) :
    ∃ id' G,
      s.target.function? id' = some G ∧ G.name = c ∧ args.length = G.signature.params.length := by
  obtain ⟨id', G, hG, hname⟩ := Recorder.mem_names.1 ((h.coherent id F hF).calls _ hcall c rfl)
  have hbody : F.blocks ≠ [] := by
    rintro hnil
    simp [Func.code, hnil] at hcall
  obtain ⟨Γ, hdraft, hΓ⟩ := h.drafts id F hF hbody
  obtain ⟨E, hcert⟩ := hdraft.certified
  obtain ⟨⟨_, ⟨sig, hsig, hargs⟩, -⟩, -⟩ := hcert.takes hcall
  have hknown := (h.coherent id' G hG).known
  rw [hname, hΓ c sig hsig, Option.some.injEq] at hknown
  exact ⟨id', G, hG, hname, hknown ▸ hargs.length_eq⟩

end Lowering

/-- In every state of a session the functions of the target have different names. Each has the
signature that is known for its name, which later items never change. A name is defined just if its
function has a body, and a function that is not defined has no code. Every call leads to a function
of the target with as many parameters as it passes arguments. -/
theorem session_coupled (items : List Item) :
    let s := Lowering.session items
    (∀ id id' F F', s.target.function? id = some F → s.target.function? id' = some F' →
      F.name = F'.name → id = id') ∧
    (∀ id F, s.target.function? id = some F → s.signatures.find? F.name = some F.signature) ∧
    (∀ later name signature, s.signatures.find? name = some signature →
      (Lowering.items later s).2.signatures.find? name = some signature) ∧
    (∀ name, s.signatures.isDefined name = true ↔ ∃ id F,
      s.target.function? id = some F ∧ F.name = name ∧ F.blocks ≠ []) ∧
    (∀ id F, s.target.function? id = some F → s.signatures.isDefined F.name = false →
      F.blocks = [] ∧ F.registers = 0) ∧
    ∀ id F, s.target.function? id = some F → ∀ dst callee args, .call dst callee args ∈ F.code →
      ∃ id' G, s.target.function? id' = some G ∧ G.name = callee ∧
        args.length = G.signature.params.length := by
  intro s
  have h : s.Coupled := Lowering.coupled_session items
  have hbare : ∀ id F, s.target.function? id = some F → s.signatures.isDefined F.name = false →
      F.blocks = [] ∧ F.registers = 0 :=
    fun id F hF hdef => (h.coherent id F hF).bare (by simpa [Signatures.isDefined] using hdef)
  refine ⟨fun _ _ _ _ hF hF' hname => Recorder.eq_of_name_eq h.names hF hF' hname,
    fun id F hF => (h.coherent id F hF).known, fun later name signature hfind => ?_,
    fun name => ⟨fun hdef => ?_, ?_⟩, hbare, fun _ _ hF _ _ _ hcall => h.callee hF hcall⟩
  · exact Lowering.items_induction (P := fun t => t.signatures.find? name = some signature)
      (fun _ item hs => Lowering.find?_after hs item) later s hfind
  · exact h.defined name (by simpa [Signatures.isDefined] using hdef)
  · rintro ⟨id, F, hF, rfl, hne⟩
    by_contra hdef
    exact hne (hbare id F hF (by simpa using hdef)).1

end ImpFront
