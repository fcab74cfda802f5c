import Mathlib
import ImpFront.Proofs.Agreement
import ImpFront.Compile

/-! Reading and lowering in turns, or one after the other. What a round of the loop over items reads
depends on the source alone, because lowering has no hold on the cursor. So the loop leaves its
target as it would be after all items that can be read are read first and then lowered, and the
diagnostics of lowering come in the same order. -/

namespace ImpFront

/-- What one round reads: an item, or the reason why there is none. -/
abbrev Reading := Except SyntaxError Item

def Reading.error? : Reading → Option SyntaxError
  | .ok _ => none
  | .error e => some e

namespace Diagnostic

def isLowering : Diagnostic → Bool
  | .reading _ => false
  | .lowering _ => true

def syntaxError? : Diagnostic → Option SyntaxError
  | .reading e => some e
  | .lowering _ => none

theorem isLowering_of_syntaxError? {d : Diagnostic} (h : d.syntaxError? = none) :
    d.isLowering = true := by
  cases d with
  | reading e => cases h
  | lowering e => rfl

end Diagnostic

namespace Cursor

/-- What the rounds read from a cursor on, without any lowering in between; `n` bounds their
number. -/
def readings : Nat → Cursor → List Reading
  | 0, _ => []
  | n + 1, c =>
    if c.current = .eof then []
    else
      match Item.parse c with
      | .ok item d => .ok item :: readings n d
      | .error e d => .error e :: readings n (d.recover e)

end Cursor

def readings (source : String) : List Reading :=
  let c := Cursor.ofSource source
  Cursor.readings (c.rest.length + 1) c

/-- The items that can be read, also behind those that cannot. -/
def readItems (source : String) : List Item := (readings source).filterMap Except.toOption

variable {σ : Type} [Emitter σ]

theorem Lowering.itemsFrom_readings (n : Nat) (c : Cursor) (s : Lowering σ) :
    (itemsFrom (fun _ t => t) n c s).2 =
      (items ((Cursor.readings n c).filterMap Except.toOption) s).2 ∧
      (itemsFrom (fun _ t => t) n c s).1.filter Diagnostic.isLowering =
        (items ((Cursor.readings n c).filterMap Except.toOption) s).1 ∧
      (itemsFrom (fun _ t => t) n c s).1.filterMap Diagnostic.syntaxError? =
        (Cursor.readings n c).filterMap Reading.error? := by
  induction n generalizing c s with
  | zero => exact ⟨rfl, rfl, rfl⟩
  | succ n ih =>
    rw [itemsFrom, Cursor.readings]
    by_cases hc : c.current = .eof
    · rw [if_pos hc, if_pos hc]
      exact ⟨rfl, rfl, rfl⟩
    · rw [if_neg hc, if_neg hc]
      cases Item.parse c with
      | error e d =>
        obtain ⟨hlast, hlowering, hreading⟩ := ih (d.recover e) s
        exact ⟨hlast, hlowering, congrArg (e :: ·) hreading⟩
      | ok item d =>
        cases hitem : item.lower s with
        | ok _ t =>
          simp only [List.filterMap_cons, Except.toOption, items, hitem, Reading.error?]
          exact ih d t
        | error e t =>
          obtain ⟨hlast, hlowering, hreading⟩ := ih d t
          simp only [List.filterMap_cons, Except.toOption, items, hitem, Reading.error?]
          exact ⟨hlast, congrArg (Diagnostic.lowering e :: ·) hlowering, hreading⟩

namespace Reader

variable {n : Nat} {c d : Cursor}

theorem itemsUpTo_succ (n : Nat) (c : Cursor) :
    itemsUpTo (n + 1) c = if c.current = .eof then .ok [] c
      else (Item.parse >>= fun item => itemsUpTo n >>= fun items => pure (item :: items)) c := by
  show (if c.current = .eof then pure [] else _ : Reader (List Item)) c = _
  split <;> rfl

/-- As long as items can be read, the loop reads what the reader of whole programs reads. -/
theorem readings_of_itemsUpTo_ok {items : List Item} (h : itemsUpTo n c = .ok items d) :
    Cursor.readings n c = items.map .ok := by
  induction n generalizing c items with
  | zero =>
    cases h
    rfl
  | succ n ih =>
    rw [itemsUpTo_succ] at h
    rw [Cursor.readings]
    split at h
    · rename_i hc
      cases h
      rw [if_pos hc]
      rfl
    · rename_i hc
      obtain ⟨item, d₁, hitem, hrest⟩ := bind_eq_ok.1 h
      obtain ⟨rest, d₂, hrest, hpure⟩ := bind_eq_ok.1 hrest
      cases hpure
      rw [if_neg hc, hitem]
      exact congrArg (Except.ok item :: ·) (ih hrest)

/-- The reader of whole programs stops where the loop meets its first syntax error. -/
theorem readings_of_itemsUpTo_error {e : SyntaxError} (h : itemsUpTo n c = .error e d) :
    ∃ (items : List Item) (rest : List Reading),
      Cursor.readings n c = items.map .ok ++ .error e :: rest := by
  induction n generalizing c with
  | zero => cases h
  | succ n ih =>
    rw [itemsUpTo_succ] at h
    rw [Cursor.readings]
    split at h
    · cases h
    · rename_i hc
      rw [if_neg hc]
      cases hitem : Item.parse c with
      | error e' d₁ =>
        rw [bind_of_error hitem] at h
        cases h
        exact ⟨[], _, rfl⟩
      | ok item d₁ =>
        rw [bind_of_ok hitem] at h
        cases hrest : itemsUpTo n d₁ with
        | ok items d₂ =>
          rw [bind_of_ok hrest] at h
          cases h
        | error e' d₂ =>
          rw [bind_of_error hrest] at h
          cases h
          obtain ⟨items, rest, hreadings⟩ := ih hrest
          exact ⟨item :: items, rest, congrArg (Except.ok item :: ·) hreadings⟩

end Reader

theorem readings_of_parse_ok {source : String} {items : List Item} (h : parse source = .ok items) :
    readings source = items.map .ok := by
  obtain ⟨d, hd⟩ := parse_eq_ok.1 h
  exact Reader.readings_of_itemsUpTo_ok hd

theorem readings_of_parse_error {source : String} {e : SyntaxError} (h : parse source = .error e) :
    ∃ (items : List Item) (rest : List Reading),
      readings source = items.map .ok ++ .error e :: rest := by
  obtain ⟨d, hd⟩ := parse_eq_error.1 h
  exact Reader.readings_of_itemsUpTo_error hd

theorem filterMap_item_ok (items : List Item) :
    (items.map .ok : List Reading).filterMap Except.toOption = items := by
  rw [List.filterMap_map]
  exact List.filterMap_some

theorem filterMap_error_ok (items : List Item) :
    (items.map .ok : List Reading).filterMap Reading.error? = [] := by
  rw [List.filterMap_map]
  exact List.filterMap_eq_nil_iff.2 fun _ _ => rfl

/-- A source is compiled to the same effect as the items in it that can be read. -/
theorem compile_readings (source : String) (target : σ) :
    (compile source target).2 = (compileItems (readItems source) target).2 ∧
      (compile source target).1.filter Diagnostic.isLowering =
        (compileItems (readItems source) target).1 ∧
      (compile source target).1.filterMap Diagnostic.syntaxError? =
        (readings source).filterMap Reading.error? := by
  obtain ⟨hlast, hlowering, hreading⟩ := Lowering.itemsFrom_readings
    ((Cursor.ofSource source).rest.length + 1) (.ofSource source) (.ofTarget target)
  exact ⟨congrArg Lowering.target hlast, hlowering, hreading⟩

theorem compile_of_parse_ok {source : String} {items : List Item} (h : parse source = .ok items)
    (target : σ) :
    compile source target = compileItems items target := by
  obtain ⟨hstate, hlowering, herrors⟩ := compile_readings source target
  have hread := readings_of_parse_ok h
  have hitems : readItems source = items := by rw [readItems, hread, filterMap_item_ok]
  -- without syntax errors, all diagnostics are of lowering
  have hall :
      (compile source target).1.filter Diagnostic.isLowering = (compile source target).1 := by
    rw [hread, filterMap_error_ok] at herrors
    exact List.filter_eq_self.2 fun d hd =>
      d.isLowering_of_syntaxError? (List.filterMap_eq_nil_iff.1 herrors d hd)
  rw [← hitems]
  exact Prod.ext (hall.symm.trans hlowering) hstate

/-- Items are read and lowered in turns to the same effect as if all that can be read were read
first. In particular a source that reads as a whole compiles as its items do, and else the first
syntax error is the one that reading the whole meets. -/
theorem compile_eq_compileItems (source : String) (target : σ) :
    ((compile source target).2 = (compileItems (readItems source) target).2 ∧
      (compile source target).1.filter Diagnostic.isLowering =
        (compileItems (readItems source) target).1 ∧
      (compile source target).1.filterMap Diagnostic.syntaxError? =
        (readings source).filterMap Reading.error?) ∧
    (∀ items, parse source = .ok items → compile source target = compileItems items target) ∧
    ∀ e, parse source = .error e →
    ((compile source target).1.filterMap Diagnostic.syntaxError?).head? = some e := by
  have hread := compile_readings source target
  refine ⟨hread, fun items hparse => compile_of_parse_ok hparse target, fun e hparse => ?_⟩
  obtain ⟨items, rest, hreadings⟩ := readings_of_parse_error hparse
  rw [hread.2.2, hreadings, List.filterMap_append, filterMap_error_ok]
  rfl

/-- A broken item between two that can be read. -/
theorem compile_eq_compileItems_brokenItem :
    let source := "int f() \x7b return x; \x7d int ; int g() \x7b return 2; \x7d"
    let broken : SyntaxError := ⟨.functionName, 26, .char ';'⟩
    parse source = .error broken ∧ (readItems source).length = 2 ∧
      ((compile source Recorder.empty).1.filterMap Diagnostic.syntaxError?).head? = some broken ∧
      (compileItems (readItems source) Recorder.empty).1 = [.lowering ⟨.unknownVariable "x", 17⟩] ∧
      (compile source Recorder.empty).1.filter Diagnostic.isLowering =
        [.lowering ⟨.unknownVariable "x", 17⟩] := by
  intro source broken
  have hparse : parse source = .error broken := by
    unfold source broken
    rfl
  have hlowering : (compileItems (readItems source) Recorder.empty).1 =
      [.lowering ⟨.unknownVariable "x", 17⟩] := by
    decide +kernel
  obtain ⟨⟨-, hsame, -⟩, -, hfirst⟩ := compile_eq_compileItems source Recorder.empty
  exact ⟨hparse, by decide +kernel, hfirst broken hparse, hlowering, hsame.trans hlowering⟩

end ImpFront
