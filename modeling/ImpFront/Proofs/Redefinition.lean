import Mathlib
import ImpFront.Proofs.History
import ImpFront.Proofs.Insertion
import ImpFront.Proofs.Representation
import ImpFront.Proofs.TwoPhase

/-! How long a body stays. A definition is refused if its function was defined before, but only the
signatures tell of that, and they are new with each source, while the target is not. The body of a
function is therefore final up to the first definition of the same name that is let in: if that one
is lowered, its blocks come behind those that were there, and if it fails, all of them are gone. -/

namespace ImpFront

open Lower

namespace Recorder

variable {r r' : Recorder} {name : String} {id : FunctionId} {F : Func}

theorem named?_eq_some_iff :
    r.named? name = some F ↔ ∃ id, r.find? name = some id ∧ r.function? id = some F :=
  Option.bind_eq_some_iff

/-- A function that is still there is found where it was. -/
theorem Later.find? (h : r.Later r') (hfind : r.find? name = some id)
    (hF : r'.function? id = some F) :
    r'.find? name = some id := by
  obtain ⟨⟨G, hG, hname⟩, hlowest⟩ := find?_eq_some_iff.1 hfind
  have hid := index_lt_of_function? hG
  refine find?_eq_some_iff.2 ⟨⟨F, hF, ?_⟩, fun id' F' hF' hname' => ?_⟩
  · obtain ⟨G', hG', hsame, -⟩ := h.owned id F hid hF
    rw [hG, Option.some.injEq] at hG'
    rw [hsame, ← hG', hname]
  · by_cases hlt : id'.index < r.functions.length
    · obtain ⟨G', hG', hsame, -⟩ := h.owned id' F' hlt hF'
      exact hlowest id' G' hG' (hsame.symm.trans hname')
    · exact hid.le.trans (Nat.le_of_not_lt hlt)

theorem Later.named? (h : r.Later r') (hfind : r.find? name = some id)
    (hF : r'.function? id = some F) :
    r'.named? name = some F :=
  named?_eq_some_iff.2 ⟨id, h.find? hfind hF, hF⟩

theorem later_clearBody (r : Recorder) (id : FunctionId) : r.Later (r.clearBody id) :=
  (r.moves_after (.clearBody id)).later

theorem later_discard (r : Recorder) (id : FunctionId) : r.Later (r.discard id) :=
  (r.moves_discard id).later

theorem later_declare (r : Recorder) (name : String) (signature : Signature) :
    r.Later (r.declare name signature).2 :=
  (r.moves_after (.declareFunction name signature)).later

end Recorder

section

variable {d : Definition} {s s' : Lowering Recorder} {S : Site} {F : Func} {B : Body}
  {id : FunctionId}

theorem Site.later_recorder (hF : S.start.target.function? S.id = some F)
    (hB : S.Follows (Body.entry F) B) :
    S.start.target.Later (S.recorder B) := by
  refine ⟨by simp [Site.recorder], fun id G hid hG => ?_⟩
  by_cases hself : id = S.id
  · subst hself
    rw [S.function?_recorder, Option.some.injEq] at hG
    subst hG
    exact ⟨F, hF, hB.name, hB.signature⟩
  · have hindex : S.id.index ≠ id.index := fun he => hself (by cases id; cases hS : S.id; simp_all)
    rw [Recorder.function?, Site.recorder, List.getElem?_append_left (by simpa using hid),
      List.getElem?_set_ne hindex] at hG
    exact ⟨G, hG, rfl, rfl⟩

theorem Site.func_of_follows (hB : S.Follows (Body.entry F) B) :
    B.func = { F with blocks := B.func.blocks, registers := B.func.registers } := by
  have hname : B.func.name = F.name := hB.name
  have hsignature : B.func.signature = F.signature := hB.signature
  rw [← hname, ← hsignature]

namespace Definition.Begun

theorem later_start (hb : d.Begun s S F) : s.target.Later S.start.target := by
  rcases hb.place with ⟨-, ht⟩ | ⟨-, -, ht⟩
  · rw [ht]
    exact .refl _
  · rw [ht]
    exact s.target.later_declare _ _

theorem later (hb : d.Begun s S F) (hB : S.Follows (Body.entry F) B) :
    s.target.Later (S.recorder B) :=
  hb.later_start.trans (Site.later_recorder hb.func hB)

/-- A definition of another name is lowered elsewhere. -/
theorem id_ne (hb : d.Begun s S F) {G : Func} (hG : s.target.function? id = some G)
    (hname : d.prototype.name ≠ G.name) :
    id ≠ S.id := by
  rintro rfl
  rcases hb.place with ⟨-, ht⟩ | ⟨-, hS, -⟩
  · have hfunc := hb.func
    rw [ht, hG, Option.some.injEq] at hfunc
    exact hname (by rw [hfunc, hb.name])
  · have hlt := Recorder.index_lt_of_function? hG
    rw [hS] at hlt
    exact Nat.lt_irrefl _ hlt

theorem function?_recorder_other (hb : d.Begun s S F) {G : Func}
    (hG : s.target.function? id = some G) (hname : d.prototype.name ≠ G.name) :
    (S.recorder B).function? id = some G := by
  have hid := hb.id_ne hG hname
  exact Site.function?_other ((hb.function?_other hid).trans hG) hid

end Definition.Begun

end

namespace Lowering

variable {d : Definition} {s : Lowering Recorder} {name : String} {F : Func}

/-- A definition is let in: its function is not defined, and not known by another signature. -/
structure Admits (s : Lowering Recorder) (d : Definition) : Prop where
  undefined : s.signatures.isDefined d.prototype.name = false
  known : ∀ known, s.signatures.find? d.prototype.name = some known → known = d.prototype.signature

theorem admits_of_begun {S : Site} (hb : d.Begun s S F) : s.Admits d := by
  refine ⟨hb.undefined, fun known hknown => ?_⟩
  have hstart := hb.find?_mono hknown
  rw [hb.find?_signatures, if_pos rfl, Option.some.injEq] at hstart
  exact hstart.symm

/-- A definition that is not let in changes nothing. -/
theorem lower_of_not_admits (h : ¬ s.Admits d) : ∃ e, d.lower s = .error e s := by
  rcases d.lower_cases s with hrefused | ⟨S, F, B, hb, -⟩
  · exact hrefused
  · exact absurd (admits_of_begun hb) h

/-- A definition that is let in takes the function of its name for its own, though that may have a
body. -/
theorem Admits.lower (h : s.Admits d) (hF : s.target.named? d.prototype.name = some F) :
    (∃ id s' more registers, d.lower s = .ok id s' ∧ more ≠ [] ∧
      s'.target.named? d.prototype.name = some { F with blocks := F.blocks ++ more, registers }) ∨
    ∃ e s', d.lower s = .error e s' ∧
    s'.target.named? d.prototype.name = some { F with blocks := [], registers := 0 } := by
  obtain ⟨id, hfind, hfunc⟩ := Recorder.named?_eq_some_iff.1 hF
  obtain ⟨Γ, hreg⟩ := Signatures.exists_register h.known
  obtain ⟨S, F', B, hb, hB, hend⟩ := d.lower_begun h.undefined hreg
  obtain ⟨rfl, hF'⟩ := hb.of_find? hfind
  obtain rfl : F = F' := Option.some.inj (hfunc.symm.trans hF')
  have hlater := hb.later hB
  have hself := S.function?_recorder B
  rcases hend with ⟨hbody, hlower⟩ | ⟨e, -, hlower⟩
  · obtain ⟨more, hmore, hblocks⟩ := hb.blocks hbody
    refine .inl ⟨S.id, _, more, B.func.registers, hlower, hmore,
      (hlater.named? hfind hself).trans (congrArg some ?_)⟩
    rw [← hblocks]
    exact Site.func_of_follows hB
  · rw [hfind, Option.isSome_some, if_pos rfl] at hlower
    refine .inr ⟨e, _, hlower, (hlater.trans (Recorder.later_clearBody _ _)).named? hfind ?_⟩
    refine (Recorder.function?_modifyFunction _ _ _ _).trans ?_
    rw [if_pos rfl, hself, Site.func_of_follows hB]
    rfl

theorem after_of_lower_ok {id : FunctionId} {s' : Lowering Recorder} (h : d.lower s = .ok id s') :
    after (.definition d) s = s' := by
  rw [after, Item.lower, bind_of_ok h]
  rfl

theorem after_of_lower_error {e : LowerError} {s' : Lowering Recorder}
    (h : d.lower s = .error e s') :
    after (.definition d) s = s' := by
  rw [after, Item.lower, bind_of_error h]

theorem Admits.named?_ne (h : s.Admits d) (hF : s.target.named? d.prototype.name = some F)
    (hbody : F.blocks ≠ []) :
    (after (.definition d) s).target.named? d.prototype.name ≠ some F := by
  rcases h.lower hF with ⟨id, s', more, registers, hlower, hmore, hF'⟩ | ⟨e, s', hlower, hF'⟩
  · rw [after_of_lower_ok hlower, hF']
    intro he
    have hblocks : F.blocks ++ more = F.blocks := congrArg Func.blocks (Option.some.inj he)
    exact hmore (by simpa using hblocks)
  · rw [after_of_lower_error hlower, hF']
    intro he
    exact hbody (congrArg Func.blocks (Option.some.inj he)).symm

/-- What is found under a name changes only where a definition of that name is let in. -/
theorem named?_after (hF : s.target.named? name = some F) (item : Item) :
    (after item s).target.named? name = some F ∨
      ∃ d, item = .definition d ∧ d.prototype.name = name ∧ s.Admits d := by
  obtain ⟨id, hfind, hfunc⟩ := Recorder.named?_eq_some_iff.1 hF
  obtain ⟨G, hG, rfl⟩ := Recorder.function?_of_find? hfind
  obtain rfl : F = G := Option.some.inj (hfunc.symm.trans hG)
  have heffect := item.lower_effect s
  unfold after
  generalize item.lower s = r at heffect ⊢
  cases heffect with
  | refused | known => exact .inl hF
  | @lowered d S F' B hb hB =>
    by_cases hname : d.prototype.name = F.name
    · exact .inr ⟨d, rfl, hname, admits_of_begun hb⟩
    · exact .inl ((hb.later hB).named? hfind (hb.function?_recorder_other hfunc hname))
  | @abandoned d S F' B e hb hB =>
    by_cases hname : d.prototype.name = F.name
    · exact .inr ⟨d, rfl, hname, admits_of_begun hb⟩
    · have hother := hb.function?_recorder_other (B := B) hfunc hname
      have hid : S.id ≠ id := (hb.id_ne hfunc hname).symm
      refine .inl ?_
      show (ite _ _ _ : Recorder).named? F.name = some F
      split
      · refine ((hb.later hB).trans (Recorder.later_clearBody _ _)).named? hfind ?_
        exact (Recorder.function?_modifyFunction _ _ _ _).trans (by rw [if_neg hid, hother])
      · refine ((hb.later hB).trans (Recorder.later_discard _ _)).named? hfind ?_
        rw [Recorder.function?_discard, if_neg hid, hother]

end Lowering

/-- What may happen to a target that serves many sources. -/
inductive Turn where
  /-- A source is begun: all signatures are forgotten. -/
  | renew
  | item (item : Item)
  deriving Repr

/-- All that is done for one source. -/
def Turn.ofSource (source : String) : List Turn := .renew :: (readItems source).map .item

namespace Lowering

variable {s : Lowering Recorder} {name : String} {F : Func}

def turn (s : Lowering Recorder) : Turn → Lowering Recorder
  | .renew => .ofTarget s.target
  | .item i => after i s

def turns (s : Lowering Recorder) (ts : List Turn) : Lowering Recorder := ts.foldl turn s

theorem turns_concat (s : Lowering Recorder) (ts : List Turn) (t : Turn) :
    s.turns (ts ++ [t]) = (s.turns ts).turn t := by
  simp [turns]

theorem turns_items (items : List Item) (s : Lowering Recorder) :
    s.turns (items.map .item) = (Lowering.items items s).2 := by
  induction items generalizing s with
  | nil => rfl
  | cons item items ih =>
    rw [Lowering.items]
    refine (ih (after item s)).trans ?_
    unfold after
    cases item.lower s <;> rfl

theorem target_turns_ofSource (source : String) (s : Lowering Recorder) :
    (s.turns (Turn.ofSource source)).target = (compile source s.target).2 :=
  congrArg Lowering.target ((turns_items _ _).trans (itemsFrom_readings _ _ _).1.symm)

/-- The target of several sources, one after another. -/
theorem target_turns_ofSources (sources : List String) (s : Lowering Recorder) :
    (s.turns (sources.flatMap Turn.ofSource)).target =
      sources.foldl (fun r source => (compile source r).2) s.target := by
  induction sources generalizing s with
  | nil => rfl
  | cons source sources ih =>
    have happend : s.turns ((source :: sources).flatMap Turn.ofSource) =
        (s.turns (Turn.ofSource source)).turns (sources.flatMap Turn.ofSource) := by
      rw [List.flatMap_cons, turns, List.foldl_append]
      rfl
    rw [happend, ih, target_turns_ofSource]
    rfl

theorem defined_after (h : name ∈ s.signatures.defined) (item : Item) :
    name ∈ (after item s).signatures.defined := by
  have heffect := item.lower_effect s
  unfold after
  generalize item.lower s = r at heffect ⊢
  cases heffect with
  | refused => exact h
  | known hreg => exact (Signatures.defined_register hreg).symm ▸ h
  | lowered hb => exact List.mem_cons_of_mem _ (hb.defined.symm ▸ h)
  | abandoned hb => exact hb.defined.symm ▸ h

/-- A name that is defined stays so until the next source is begun. -/
theorem defined_turns {later : List Turn} (h : name ∈ s.signatures.defined)
    (hsame : .renew ∉ later) :
    name ∈ (s.turns later).signatures.defined := by
  induction later generalizing s with
  | nil => exact h
  | cons t later ih =>
    cases t with
    | renew => exact absurd List.mem_cons_self hsame
    | item i => exact ih (defined_after h i) fun hmem => hsame (List.mem_cons_of_mem _ hmem)

/-- The function of a name is what it was as long as no definition of that name is let in. -/
theorem named?_turns_iff (hF : s.target.named? name = some F) (hbody : F.blocks ≠ [])
    (later : List Turn) :
    (∀ early, early <+: later → (s.turns early).target.named? name = some F) ↔
      ∀ early d, early ++ [.item (.definition d)] <+: later → d.prototype.name = name →
      ¬ (s.turns early).Admits d := by
  constructor
  · rintro hkept early d hearly rfl hadmits
    have hnow := hkept early ((List.prefix_append _ _).trans hearly)
    refine hadmits.named?_ne hnow hbody ?_
    rw [← hkept _ hearly, turns_concat]
    rfl
  · intro hrefused early
    induction early using List.reverseRecOn with
    | nil => exact fun _ => hF
    | append_singleton early t ih =>
      intro hearly
      have hnow := ih ((List.prefix_append _ _).trans hearly)
      rw [turns_concat]
      cases t with
      | renew => exact hnow
      | item i =>
        rcases named?_after hnow i with hkept | ⟨d, rfl, hname, hadmits⟩
        · exact hkept
        · exact absurd hadmits (hrefused early d hearly hname)

/-- A definition that was lowered is found under its name, with a body. -/
theorem named?_of_lower {d : Definition} {id : FunctionId} {s' : Lowering Recorder}
    (h : d.lower s = .ok id s') :
    (∃ F, s'.target.named? d.prototype.name = some F ∧ F.blocks ≠ []) ∧
    d.prototype.name ∈ s'.signatures.defined := by
  rcases d.lower_cases s with ⟨e, he⟩ | ⟨S, F, B, hb, hB, ⟨hbody, hlower⟩ | ⟨e, he⟩⟩
  · rw [he] at h
    cases h
  · rw [hlower] at h
    cases h
    obtain ⟨more, hmore, hblocks⟩ := hb.blocks hbody
    have hnamed := (Site.later_recorder hb.func hB).named? hb.find?_start (S.function?_recorder B)
    exact ⟨⟨B.func, hnamed, by simp [hblocks, hmore]⟩, List.mem_cons_self⟩
  · rw [he] at h
    cases h

end Lowering

/-- The body of a function is final up to the first definition of the same name that is let in. One
that is let in either is lowered, and its blocks come behind those of the body, or fails, and
nothing is left of the body. A definition in the same source is never let in; where a source begins,
all are. -/
theorem body_final_iff (before : List Turn) (d : Definition) {id : FunctionId}
    {s : Lowering Recorder}
    (h : d.lower ((Lowering.ofTarget Recorder.empty).turns before) = .ok id s) :
    ∃ F, s.target.named? d.prototype.name = some F ∧ F.blocks ≠ [] ∧
      (∀ later,
        (∀ early, early <+: later → (s.turns early).target.named? d.prototype.name = some F) ↔
        ∀ early d',
          early ++ [.item (.definition d')] <+: later → d'.prototype.name = d.prototype.name →
          ¬ (s.turns early).Admits d') ∧
      (∀ later d', (s.turns later).target.named? d.prototype.name = some F →
        d'.prototype.name = d.prototype.name →
        let t := s.turns later
        (¬ t.Admits d' → ∃ e, d'.lower t = .error e t) ∧
        (t.Admits d' →
          (∃ id t' more registers, d'.lower t = .ok id t' ∧ more ≠ [] ∧
            t'.target.named? d.prototype.name =
              some { F with blocks := F.blocks ++ more, registers }) ∨
          ∃ e t', d'.lower t = .error e t' ∧
            t'.target.named? d.prototype.name = some { F with blocks := [], registers := 0 })) ∧
      (∀ later, .renew ∉ later → (s.turns later).target.named? d.prototype.name = some F ∧
        ∀ d' : Definition, d'.prototype.name = d.prototype.name →
          d'.lower (s.turns later) =
            .error ⟨.functionRedefined d.prototype.name, d'.prototype.pos⟩ (s.turns later)) ∧
      (∀ later d', (s.turns (later ++ [.renew])).Admits d') ∧
      ∀ sources : List String, sources.foldl (fun r source => (compile source r).2) s.target =
        (s.turns (sources.flatMap Turn.ofSource)).target := by
  obtain ⟨⟨F, hF, hbody⟩, hdefined⟩ := Lowering.named?_of_lower h
  have hredefined :
      ∀ later (d' : Definition), .renew ∉ later → d'.prototype.name = d.prototype.name →
      (s.turns later).signatures.isDefined d'.prototype.name = true := by
    intro later d' hsame hname
    rw [hname, Signatures.isDefined, decide_eq_true_iff]
    exact Lowering.defined_turns hdefined hsame
  refine ⟨F, hF, hbody, Lowering.named?_turns_iff hF hbody,
    fun later d' hnow hname => ?_, fun later hsame => ⟨?_, ?_⟩, fun later d' => ?_,
    fun sources => (Lowering.target_turns_ofSources sources s).symm⟩
  · rw [← hname] at hnow ⊢
    exact ⟨Lowering.lower_of_not_admits, fun hadmits => hadmits.lower hnow⟩
  · refine (Lowering.named?_turns_iff hF hbody later).2 (fun early d' hearly hname hadmits => ?_)
      later (List.prefix_refl _)
    have hsame' : .renew ∉ early := fun hmem => hsame (hearly.subset (List.mem_append_left _ hmem))
    exact absurd (hredefined early d' hsame' hname) (by simp [hadmits.undefined])
  · intro d' hname
    rw [← hname]
    exact d'.lower_redefined (hredefined later d' hsame hname)
  · rw [Lowering.turns_concat]
    exact ⟨rfl, fun known hknown => by cases hknown⟩

/-- The function of a definition that is lowered. -/
def Lowering.lowered? (d : Definition) (s : Lowering Recorder) : Option FunctionId :=
  match d.lower s with
  | .ok id _ => some id
  | .error _ _ => none

theorem Lowering.lower_of_lowered? {d : Definition} {s : Lowering Recorder} {id : FunctionId}
    (h : Lowering.lowered? d s = some id) :
    d.lower s = .ok id (Lowering.after (.definition d) s) := by
  unfold Lowering.lowered? at h
  cases hl : d.lower s with
  | ok id' t =>
    rw [hl] at h
    cases h
    rw [Lowering.after_of_lower_ok hl]
  | error e t =>
    rw [hl] at h
    cases h

/-- The same definition is refused in the source of the first one, and let in at the start of the
next. -/
theorem body_final_iff_failing :
    let f (value : Expr) : Definition := ⟨0, ⟨0, "f", [], .plain .int⟩, .mk 0 [.ret 0 value]⟩
    let d := f (.int 0 1)
    let again := Turn.item (.definition (f (.var 0 "x")))
    let s := Lowering.after (.definition d) (.ofTarget Recorder.empty)
    d.lower ((Lowering.ofTarget Recorder.empty).turns []) = .ok ⟨0⟩ s ∧
      ∃ F, s.target.named? "f" = some F ∧ F.blocks ≠ [] ∧
        (s.turns [again]).target.named? "f" = some F ∧
        ¬ ∀ early, early <+: [.renew, again] → (s.turns early).target.named? "f" = some F := by
  intro f d again s
  have h : d.lower ((Lowering.ofTarget Recorder.empty).turns []) = .ok ⟨0⟩ s :=
    Lowering.lower_of_lowered? (by decide +kernel)
  obtain ⟨F, hF, hbody, hfinal, -, hsame, hadmits, -⟩ := body_final_iff [] d h
  have hkept := (hsame [again] (by simp [again])).1
  refine ⟨h, F, hF, hbody, hkept, fun hall => ?_⟩
  exact (hfinal [.renew, again]).1 hall [.renew] _ (List.prefix_refl _) rfl (hadmits [] _)

/-- The body of a function does not outlast a second source that defines it: without any report the
second body comes behind it, and together with a second body that fails it is gone. -/
theorem compile_overwrites_body :
    let r := (compile "int f() \x7b return 1; \x7d" Recorder.empty).2
    let r' := (compile "int f() \x7b return 2; \x7d" r).2
    (r.named? "f").map (fun F => F.blocks.map BasicBlock.label) = some ["entry"] ∧
      (compile "int f() \x7b return 2; \x7d" r).1 = [] ∧
      (r'.named? "f").map (fun F => F.blocks.map BasicBlock.label) = some ["entry", "entry1"] ∧
      ((compile "int f() \x7b return x; \x7d" r).2.named? "f").map Func.blocks = some [] := by
  intro r r'
  exact ⟨by decide +kernel, by decide +kernel, by decide +kernel, by decide +kernel⟩

end ImpFront
