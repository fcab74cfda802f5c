import Mathlib
import ImpFront.Proofs.Failure
import ImpFront.Proofs.Lockstep

/-! Lowering a tree that stands elsewhere. Places go into diagnostics and nowhere else, so a moved
tree leads to the same state, and if it fails, then for the same reason at the moved place. -/

namespace ImpFront

open Lower

/-- One and the same state, with signatures in `I`. -/
def Lowering.Same (σ : Type) (I : Signatures → Prop) (s s' : Lowering σ) : Prop :=
  s' = s ∧ I s.signatures

section Steps

variable {σ α β : Type} {f : Nat → Nat} {I : Signatures → Prop}

namespace Lower

theorem same_of_signatures {x : Lower σ α} {y : Lower σ β} {P : α → β → Prop}
    (h : ∀ Γ, I Γ → Paired (Lowering.Same σ (· = Γ)) f x y P) :
    Paired (Lowering.Same σ I) f x y P := by
  rintro s s' ⟨rfl, hI⟩
  obtain ⟨t, t', ⟨ht, hΓ⟩, hend⟩ := h _ hI s' s' ⟨rfl, rfl⟩
  exact ⟨t, t', ⟨ht, hΓ ▸ hI⟩, hend⟩

/-- A step that always succeeds and keeps to its signatures. -/
theorem same_of_ok {x : Lower σ α}
    (h : ∀ s, ∃ a t, x s = .ok a t ∧ (I s.signatures → I t.signatures)) :
    Paired (Lowering.Same σ I) f x x Eq := by
  rintro s s' ⟨rfl, hI⟩
  obtain ⟨a, t, hx, hkeeps⟩ := h s'
  exact ⟨t, t, ⟨rfl, hkeeps hI⟩, .inl ⟨a, a, hx, hx, rfl⟩⟩

theorem same_signatureOf (pos : Nat) (g : String) :
    Paired (Lowering.Same σ I) f (signatureOf pos g) (signatureOf (f pos) g) Eq := by
  rintro s s' hs
  obtain rfl := hs.1
  unfold signatureOf
  cases s'.signatures.find? g with
  | none => exact ⟨s', s', hs, .inr ⟨_, _, rfl, rfl, .inl rfl⟩⟩
  | some signature => exact ⟨s', s', hs, .inl ⟨_, _, rfl, rfl, rfl⟩⟩

theorem same_pushTemporary (v : Value) :
    Paired (Lowering.Same σ I) f (pushTemporary v) (pushTemporary v) Eq :=
  same_of_ok fun _ => ⟨_, _, rfl, fun hI => hI⟩

theorem same_enter (current : Option Current) :
    Paired (Lowering.Same σ I) f (enter current) (enter current) Eq :=
  same_of_ok fun _ => ⟨_, _, rfl, fun hI => hI⟩

theorem same_attempt {R : Lowering σ → Lowering σ → Prop} {x y : Lower σ α}
    (h : Paired R f x y Eq) :
    Paired R f (attempt x) (attempt y) fun r r' =>
      (∃ a, r = .ok a ∧ r' = .ok a) ∨ ∃ e e', r = .error e ∧ r' = .error e' ∧ e.Moved f e' := by
  intro s s' hs
  obtain ⟨t, t', ht, ⟨a, b, hx, hy, rfl⟩ | ⟨e, e', hx, hy, he⟩⟩ := h s s' hs
  · exact ⟨t, t', ht,
      .inl ⟨.ok a, .ok a, by rw [attempt, hx], by rw [attempt, hy], .inl ⟨a, rfl, rfl⟩⟩⟩
  · exact ⟨t, t', ht, .inl ⟨.error e, .error e', by rw [attempt, hx], by rw [attempt, hy],
      .inr ⟨e, e', rfl, rfl, he⟩⟩⟩

variable [Emitter σ]

theorem same_emit (op : Op α) : Paired (Lowering.Same σ I) f (emit op) (emit op) Eq := by
  rintro s s' ⟨rfl, hI⟩
  unfold emit
  cases Emitter.perform op s'.target with
  | ok a t => exact ⟨{ s' with target := t }, _, ⟨rfl, hI⟩, .inl ⟨a, a, rfl, rfl, rfl⟩⟩
  | error e t =>
    refine ⟨{ s' with target := t }, _, ⟨rfl, hI⟩,
      .inr ⟨_, _, rfl, rfl, .inr ⟨rfl, NoInsertionBlock.message, rfl⟩⟩⟩

theorem same_functionHandle (pos : Nat) (g : String) :
    Paired (Lowering.Same σ I) f (functionHandle pos g) (functionHandle (f pos) g) Eq := by
  apply (same_emit _).next
  intro found
  cases found with
  | some id => exact paired_return id
  | none => exact (same_signatureOf pos g).next fun signature => same_emit _

theorem same_call (pos : Nat) (g : String) (ret : Ty) (args : List Value) :
    Paired (Lowering.Same σ I) f (call pos g ret args) (call (f pos) g ret args) Eq := by
  refine (same_functionHandle pos g).next fun id => (same_emit _).next fun v => ?_
  cases ret.isPointer with
  | true => exact (same_pushTemporary v).next fun _ => paired_return _
  | false => exact paired_return _

end Lower

/-- A state goes through a body in lockstep with itself. -/
def Lockstep.relocation (σ : Type) [Emitter σ] (f : Nat → Nat) (names : List String)
    (Γ : Signatures) : Lockstep σ σ where
  Rel := Lowering.Same σ (· = Γ)
  place := f
  Block := Eq
  callees := names
  signatures := Γ
  scopes := by
    rintro _ _ ⟨rfl, -⟩
    rfl
  temporaries := by
    rintro _ _ ⟨rfl, -⟩
    rfl
  rescope := by
    rintro _ _ sc ⟨rfl, rfl⟩
    exact ⟨rfl, rfl⟩
  retain := by
    rintro _ _ ts ⟨rfl, rfl⟩
    exact ⟨rfl, rfl⟩
  known := by
    rintro _ _ g ⟨rfl, rfl⟩ -
    exact ⟨rfl, rfl⟩
  code _ := same_emit _
  current := by
    rintro s s' hs
    obtain rfl := hs.1
    unfold Lower.current
    cases s'.current with
    | none => exact ⟨s', s', hs, .inr ⟨_, _, rfl, rfl, .inr ⟨rfl, _, rfl⟩⟩⟩
    | some c => exact ⟨s', s', hs, .inl ⟨c, c, rfl, rfl, rfl, fun hint => same_emit _⟩⟩
  branch := by
    rintro _ _ rfl
    exact same_emit _
  condBranch := by
    rintro _ _ _ _ _ rfl rfl
    exact same_emit _
  positionAtEnd := by
    rintro _ _ rfl
    exact same_emit _
  call _ _ := same_call _ _ _ _

end Steps

variable {σ : Type} {f : Nat → Nat}

theorem register_same (p : Prototype) :
    Paired (Lowering.Same σ fun _ => True) f (register p) (register (p.mapPos f)) Eq := by
  rintro s s' hs
  obtain rfl := hs.1
  unfold register
  rw [Prototype.signature_mapPos, show (p.mapPos f).name = p.name from rfl]
  cases s'.signatures.register p.name p.signature with
  | ok Γ => exact ⟨{ s' with signatures := Γ }, _, ⟨rfl, trivial⟩, .inl ⟨_, _, rfl, rfl, rfl⟩⟩
  | error fault => exact ⟨s', s', hs, .inr ⟨_, _, rfl, rfl, .inl rfl⟩⟩

variable [Emitter σ]

theorem Definition.lowerBody_same {I : Signatures → Prop} (d : Definition) (g : FunctionId) :
    Paired (Lowering.Same σ I) f (d.lowerBody g) ((d.mapPos f).lowerBody g) Eq := by
  refine same_of_signatures fun Γ _ => (same_emit _).next fun entry => (same_emit _).next fun _ =>
    ?_
  rw [show (d.mapPos f).prototype.print = d.prototype.print from Prototype.print_mapPos f _]
  exact Definition.lowerBody_steps d (fun _ h => h) fun i =>
    (Lockstep.relocation σ f d.callees Γ).code rfl

theorem Definition.lower_same (d : Definition) :
    Paired (Lowering.Same σ fun _ => True) f d.lower (d.mapPos f).lower Eq := by
  apply (same_of_ok fun _ => ⟨_, _, rfl, fun _ => trivial⟩ : Paired (Lowering.Same σ fun _ => True)
    f (isDefined d.prototype.name) (isDefined d.prototype.name) Eq).next
  intro defined
  cases defined with
  | true => exact paired_fail _ _
  | false =>
    refine (register_same d.prototype).next fun _ => (same_emit _).next fun declared => ?_
    refine (same_functionHandle _ _).next fun g => (same_enter _).next fun _ => ?_
    refine (same_attempt (d.lowerBody_same g)).bind fun outcome outcome' hend =>
      (same_enter _).next fun _ => ?_
    rcases hend with ⟨_, rfl, rfl⟩ | ⟨e, e', rfl, rfl, he⟩
    · exact (same_of_ok fun _ => ⟨_, _, rfl, fun _ => trivial⟩).next fun _ => paired_return g
    · have hraise :
          Paired (Lowering.Same σ fun _ => True) f (raise e : Lower σ FunctionId) (raise e') Eq :=
        fun s s' hs => ⟨s, s', hs, .inr ⟨e, e', rfl, rfl, he⟩⟩
      dsimp only
      cases declared.isSome with
      | true => exact (same_emit _).next fun _ => hraise
      | false => exact (same_emit _).next fun _ => hraise

theorem Item.lower_same (item : Item) :
    Paired (Lowering.Same σ fun _ => True) f item.lower (item.mapPos f).lower Eq := by
  cases item with
  | external p => exact register_same p
  | definition d => exact d.lower_same.next fun _ => paired_return ()

/-- In a state of a session a moved item ends as it would have at its place. -/
theorem Item.lower_mapPos (item : Item) (f : Nat → Nat) {s : Lowering Recorder} (h : s.Coupled) :
    (∃ t, item.lower s = .ok () t ∧ (item.mapPos f).lower s = .ok () t) ∨
      ∃ e t, item.lower s = .error e t ∧ (item.mapPos f).lower s = .error (e.mapPos f) t := by
  obtain ⟨t, t', ⟨rfl, -⟩, ⟨_, _, hx, hy, -⟩ | ⟨e, e', hx, hy, he⟩⟩ :=
    item.lower_same (f := f) s s ⟨rfl, trivial⟩
  · exact .inl ⟨t', hx, hy⟩
  · refine .inr ⟨e, t', hx, ?_⟩
    rcases he with rfl | ⟨-, cause, hinternal⟩
    · exact hy
    · -- a session meets no internal error
      obtain ⟨-, hbody | ⟨-, hfault | hfault⟩⟩ := Item.lower_error h hx
      · rw [hinternal] at hbody
        cases hbody
      · cases hinternal.symm.trans hfault
      · cases hinternal.symm.trans hfault

end ImpFront
