import Mathlib
import ImpFront.Proofs.Relocation
import ImpFront.Proofs.RoundTrip
import ImpFront.Proofs.TwoPhase

/-! Compiling what was printed. Trees that differ in places only are lowered alike: they lead to the
same state, and where one fails the other fails for the same reason. The lines of a program read
back as such a tree, so they compile to the same code, although an `else` that was left out is
printed and one before an `if` gets braces. -/

namespace ImpFront

open Lower

mutual

theorem Expr.erase_eq_mapPos : ∀ e : Expr, e.erase = e.mapPos fun _ => 0
  | .int _ _ | .double _ _ | .var _ _ => rfl
  | .binary _ _ l r => by simp only [Expr.erase, Expr.mapPos, l.erase_eq_mapPos, r.erase_eq_mapPos]
  | .call _ _ args => by simp only [Expr.erase, Expr.mapPos, Expr.eraseList_eq_mapPosList args]

theorem Expr.eraseList_eq_mapPosList :
    ∀ es : List Expr, Expr.eraseList es = Expr.mapPosList (fun _ => 0) es
  | [] => rfl
  | e :: es =>
    by simp only [Expr.eraseList, Expr.mapPosList, e.erase_eq_mapPos,
      Expr.eraseList_eq_mapPosList es]

end

mutual

theorem Stmt.erase_eq_mapPos : ∀ s : Stmt, s.erase = s.mapPos fun _ => 0
  | .declaration _ _ _ => rfl
  | .assignment _ _ e | .ret _ e => by simp only [Stmt.erase, Stmt.mapPos, e.erase_eq_mapPos]
  | .ifElse _ c yes no => by
    simp only [Stmt.erase, Stmt.mapPos, c.erase_eq_mapPos, yes.erase_eq_mapPos, no.erase_eq_mapPos]
  | .loop _ c body =>
    by simp only [Stmt.erase, Stmt.mapPos, c.erase_eq_mapPos, body.erase_eq_mapPos]
  | .block body => by simp only [Stmt.erase, Stmt.mapPos, body.erase_eq_mapPos]

theorem Block.erase_eq_mapPos : ∀ b : Block, b.erase = b.mapPos fun _ => 0
  | .mk _ ss => by simp only [Block.erase, Block.mapPos, Stmt.eraseList_eq_mapPosList ss]

theorem Stmt.eraseList_eq_mapPosList :
    ∀ ss : List Stmt, Stmt.eraseList ss = Stmt.mapPosList (fun _ => 0) ss
  | [] => rfl
  | s :: ss =>
    by simp only [Stmt.eraseList, Stmt.mapPosList, s.erase_eq_mapPos,
      Stmt.eraseList_eq_mapPosList ss]

end

theorem Item.erase_eq_mapPos (item : Item) : item.erase = item.mapPos fun _ => 0 := by
  have hproto (p : Prototype) : p.erase = p.mapPos fun _ => 0 := rfl
  cases item with
  | external p => exact congrArg Item.external (hproto p)
  | definition d =>
    simp only [Item.erase, Definition.erase, Item.mapPos, Definition.mapPos, hproto,
      Block.erase_eq_mapPos]

/-- What a diagnostic says, without the place where it says it. -/
def Diagnostic.kind : Diagnostic → Expected ⊕ Fault
  | .reading e => .inl e.expected
  | .lowering e => .inr e.fault

variable {σ : Type}

/-- How a step of lowering ends, without the place of its error. -/
def Lower.outcome {α : Type} (x : Lower σ α) (s : Lowering σ) : Except Fault α × Lowering σ :=
  match x s with
  | .ok a t => (.ok a, t)
  | .error e t => (.error e.fault, t)

variable [Emitter σ]

theorem Item.outcome_erase (item : Item) (s : Lowering σ) :
    outcome item.erase.lower s = outcome item.lower s := by
  obtain ⟨t, t', ⟨rfl, -⟩, hend⟩ := item.lower_same (f := fun _ => 0) s s ⟨rfl, trivial⟩
  rw [Item.erase_eq_mapPos]
  unfold outcome
  rcases hend with ⟨_, _, hx, hy, -⟩ | ⟨e, e', hx, hy, he⟩
  · rw [hx, hy]
  · -- the error moves with its place, or has none
    have hfault : e'.fault = e.fault := by
      rcases he with rfl | ⟨rfl, -⟩
      · rfl
      · rfl
    rw [hx, hy]
    exact Prod.ext (congrArg Except.error hfault) rfl

/-- Items that differ in places only are lowered alike, one after the other. -/
theorem Lowering.items_of_erase_eq {items items' : List Item}
    (h : items'.map Item.erase = items.map Item.erase) (s : Lowering σ) :
    (Lowering.items items' s).2 = (Lowering.items items s).2 ∧
      (Lowering.items items' s).1.map Diagnostic.kind =
        (Lowering.items items s).1.map Diagnostic.kind := by
  induction items generalizing items' s with
  | nil =>
    obtain rfl := List.map_eq_nil_iff.1 h
    exact ⟨rfl, rfl⟩
  | cons item items ih =>
    obtain ⟨item', items', rfl, hitem, hitems⟩ := List.map_eq_cons_iff.1 h
    have houtcome : outcome item'.lower s = outcome item.lower s := by
      rw [← item'.outcome_erase, hitem, item.outcome_erase]
    unfold outcome at houtcome
    unfold Lowering.items
    cases hl : item.lower s with
    | ok u t =>
      cases hl' : item'.lower s with
      | ok u' t' =>
        rw [hl, hl'] at houtcome
        obtain rfl : t' = t := congrArg Prod.snd houtcome
        exact ih hitems t'
      | error e' t' =>
        rw [hl, hl'] at houtcome
        cases congrArg Prod.fst houtcome
    | error e t =>
      cases hl' : item'.lower s with
      | ok u' t' =>
        rw [hl, hl'] at houtcome
        cases congrArg Prod.fst houtcome
      | error e' t' =>
        rw [hl, hl'] at houtcome
        obtain rfl : t' = t := congrArg Prod.snd houtcome
        have hfault : e'.fault = e.fault := Except.error.inj (congrArg Prod.fst houtcome)
        obtain ⟨hlast, hkinds⟩ := ih hitems t'
        refine ⟨hlast, ?_⟩
        show Sum.inr e'.fault :: _ = Sum.inr e.fault :: _
        rw [hfault, hkinds]

/-- A source that parses compiles to the same code as the lines of its items, whatever the code is
written to, and to diagnostics that say the same. More generally items that differ in places only
are lowered alike from any state. -/
theorem compile_lines (target : σ) (s : Lowering σ) :
    (∀ source items, parse source = .ok items →
      let lines := "\n".intercalate (items.map Item.print)
      (compile lines target).2 = (compile source target).2 ∧
        (compile lines target).1.map Diagnostic.kind =
          (compile source target).1.map Diagnostic.kind) ∧
    ∀ items items' : List Item, items'.map Item.erase = items.map Item.erase →
      (Lowering.items items' s).2 = (Lowering.items items s).2 ∧
        (Lowering.items items' s).1.map Diagnostic.kind =
          (Lowering.items items s).1.map Diagnostic.kind := by
  refine ⟨fun source items hparse => ?_,
    fun items items' herase => Lowering.items_of_erase_eq herase s⟩
  obtain ⟨items', hlines, herase⟩ := parse_lines_erase (printable_of_parse hparse)
  obtain ⟨hlast, hkinds⟩ := Lowering.items_of_erase_eq herase (.ofTarget target)
  intro lines
  rw [compile_of_parse_ok hlines, compile_of_parse_ok hparse]
  exact ⟨congrArg Lowering.target hlast, hkinds⟩

/-- A conditional without `else`, one behind `else`, a word that wraps around and a numeral with two
points, all of which are printed otherwise than they stand here; the first function cannot be
lowered. -/
def unevenly : String :=
  "int f(int a) \x7b if (a < 1) \x7b return 4294967295; \x7d else if (a) \x7b \x7d " ++
    "return b; \x7d int g() \x7b while (g()) \x7b \x7d return 1.5.7; \x7d"

/-- The same definition at two places, which fails at both. -/
def misnamed (pos : Nat) : Item :=
  .definition ⟨pos, ⟨pos, "h", [], .plain .int⟩,
    .mk (pos + 8) [.ret (pos + 10) (.var (pos + 17) "x")]⟩

theorem compile_lines_unevenly :
    (∃ items, parse unevenly = .ok items ∧
      let lines := "\n".intercalate (items.map Item.print)
      (compile lines Recorder.empty).2 = (compile unevenly Recorder.empty).2 ∧
        (compile lines Recorder.empty).1.map Diagnostic.kind = [.inr (.unknownVariable "b")]) ∧
    (Lowering.items [misnamed 40] (.ofTarget Recorder.empty)).2 =
      (Lowering.items [misnamed 2] (.ofTarget Recorder.empty)).2 ∧
      (Lowering.items [misnamed 40] (.ofTarget Recorder.empty)).1.map Diagnostic.kind =
        [.inr (.unknownVariable "x")] := by
  obtain ⟨hlines, hplaces⟩ := compile_lines Recorder.empty (.ofTarget Recorder.empty)
  constructor
  · have hok : (parse unevenly).isOk = true := by decide +kernel
    have hkinds : (compile unevenly Recorder.empty).1.map Diagnostic.kind =
        [.inr (.unknownVariable "b")] := by
      decide +kernel
    cases h : parse unevenly with
    | error e =>
      rw [h] at hok
      cases hok
    | ok items => exact ⟨items, rfl, (hlines _ _ h).1, (hlines _ _ h).2.trans hkinds⟩
  · obtain ⟨hlast, hkinds⟩ := hplaces [misnamed 2] [misnamed 40] rfl
    exact ⟨hlast, hkinds.trans (by decide +kernel)⟩

end ImpFront
