import Mathlib
import ImpFront.Proofs.Braces

/-! Brace accounting. Whatever is asked of a reader, and in whatever order, its cursor only moves on
over tokens of the source, and its depth is that of the braces passed from the start. What one call
adds to the depth are the blocks that it has opened and not closed, and to synchronize is to go on
to the first token outside of braces that starts an item. -/

namespace ImpFront

open Reader

/-- The brace depth behind the first `n` tokens, if `depth` braces are open before them. -/
def braceDepth (ts : List Placed) (depth n : Nat) : Nat :=
  ((ts.take n).map Placed.token).foldl depthAfter depth

/-- The cursor behind `n` more tokens. -/
def Cursor.forward (c : Cursor) (n : Nat) : Cursor :=
  ⟨c.rest.drop n, c.stop, braceDepth c.rest c.depth n⟩

/-- Reading can be taken up again behind `n` tokens: at the end, or outside of braces at a type or
at `extern`. -/
def StopsAt (ts : List Placed) (depth n : Nat) : Prop :=
  n = ts.length ∨ ∃ t,
    ts[n]? = some t ∧ ((∃ ty, t.token = .type ty) ∨ t.token = .keyword .externKw) ∧
    braceDepth ts depth n = 0

/-- What a reader can be asked for. -/
inductive Call : Type → Type where
  | item : Call Item
  | external : Call Prototype
  | definition : Call Definition
  | prototype : Call Prototype
  | block (missing : Expected) : Call Block
  | statement : Call Stmt
  | declaration : Call Stmt
  | assignment : Call Stmt
  | ret : Call Stmt
  | ifElse : Call Stmt
  | loop : Call Stmt
  | expression : Call Expr

namespace Call

def run {α : Type} : Call α → Reader α
  | item => Item.parse
  | external => Prototype.parseExternal
  | definition => Definition.parse
  | prototype => Prototype.parse
  | block missing => Block.parse missing
  | statement => Stmt.parse
  | declaration => Stmt.parseDeclaration
  | assignment => Stmt.parseAssignment
  | ret => Stmt.parseReturn
  | ifElse => Stmt.parseIf
  | loop => Stmt.parseWhile
  | expression => Expr.parse

/-- The keyword that is taken for granted: the first token is passed over, whatever it is. -/
def keyword? {α : Type} : Call α → Option Keyword
  | external => some .externKw
  | ret => some .returnKw
  | ifElse => some .ifKw
  | loop => some .whileKw
  | _ => none

end Call

/-- Where a reader leaves its cursor, whether it succeeds or fails. -/
def Reader.endsAt {α : Type} (p : Reader α) (c : Cursor) : Cursor :=
  match p c with
  | .ok _ d => d
  | .error _ d => d

/-- The cursors that one can get to in a source. -/
inductive Visited (source : String) : Cursor → Prop
  | start : Visited source (.ofSource source)
  | next {c : Cursor} : Visited source c → Visited source c.advance
  | synchronize {c : Cursor} : Visited source c → Visited source c.synchronize
  | call {α : Type} {c : Cursor} (call : Call α) :
      Visited source c → Visited source (call.run.endsAt c)

theorem braceDepth_add (ts : List Placed) (depth m n : Nat) :
    braceDepth ts depth (m + n) = braceDepth (ts.drop m) (braceDepth ts depth m) n := by
  rw [braceDepth, braceDepth, braceDepth, List.take_add, List.map_append, List.foldl_append]

theorem stopsAt_drop (ts : List Placed) {m : Nat} (hm : m ≤ ts.length) (depth n : Nat) :
    StopsAt (ts.drop m) (braceDepth ts depth m) n ↔ StopsAt ts depth (m + n) := by
  rw [StopsAt, StopsAt, List.getElem?_drop, List.length_drop, braceDepth_add]
  exact or_congr_left (by omega)

theorem Token.startsItem_iff {t : Token} :
    t.startsItem = true ↔ (∃ ty, t = .type ty) ∨ t = .keyword .externKw := by
  unfold startsItem
  split <;> simp_all

namespace Cursor

theorem forward_forward (c : Cursor) (m n : Nat) : (c.forward m).forward n = c.forward (m + n) := by
  simp only [forward, List.drop_drop, braceDepth_add]

/-- The cursor `d` is some tokens further on. -/
def Leads (c d : Cursor) : Prop := ∃ n ≤ c.rest.length, d = c.forward n

theorem Leads.refl (c : Cursor) : c.Leads c := ⟨0, Nat.zero_le _, rfl⟩

theorem Leads.trans {c d e : Cursor} (h : c.Leads d) (h' : d.Leads e) : c.Leads e := by
  obtain ⟨m, hm, rfl⟩ := h
  obtain ⟨n, hn, rfl⟩ := h'
  rw [forward, List.length_drop] at hn
  exact ⟨m + n, by omega, c.forward_forward m n⟩

theorem Reads.leads {c d : Cursor} {us : List Placed} (h : c.Reads us d) : c.Leads d := by
  refine ⟨us.length, by rw [h.length_rest]; exact Nat.le_add_right _ _, ?_⟩
  have hdrop : c.rest.drop us.length = d.rest := by rw [h.rest, List.drop_left]
  have htake : c.rest.take us.length = us := by rw [h.rest, List.take_left]
  rw [forward, braceDepth, hdrop, htake, ← h.depth, ← h.stop]

/-- From `c` the tokens `us` lead to `d`. -/
structure Passes (c : Cursor) (us : List Token) (d : Cursor) : Prop where
  tokens : c.tokens = us ++ d.tokens
  depth : d.depth = us.foldl depthAfter c.depth
  stop : d.stop = c.stop

theorem Reads.passes {c d : Cursor} {us : List Placed} (h : c.Reads us d) :
    c.Passes (us.map Placed.token) d :=
  ⟨h.tokens, h.depth, h.stop⟩

/-- What is skipped ends at the first place where reading can be taken up. -/
theorem skipToItem_isLeast (ts : List Placed) (depth : Nat) :
    ∃ n, skipToItem ts depth = (ts.drop n, braceDepth ts depth n) ∧
    IsLeast {n | StopsAt ts depth n} n := by
  induction ts generalizing depth with
  | nil => exact ⟨0, rfl, .inl rfl, fun _ _ => Nat.zero_le _⟩
  | cons t ts ih =>
    rw [skipToItem]
    by_cases h : depth = 0 ∧ t.token.startsItem = true
    · rw [if_pos h]
      exact ⟨0, rfl, .inr ⟨t, rfl, Token.startsItem_iff.1 h.2, h.1⟩, fun _ _ => Nat.zero_le _⟩
    · rw [if_neg h]
      obtain ⟨n, hskip, hstop, hleast⟩ := ih (depthAfter depth t.token)
      have hshift : ∀ i, StopsAt ts (depthAfter depth t.token) i ↔
          StopsAt (t :: ts) depth (i + 1) := fun i => by
        rw [Nat.add_comm]
        exact stopsAt_drop (t :: ts) (m := 1) (by simp) depth i
      refine ⟨n + 1, hskip, (hshift n).1 hstop, fun i hi => ?_⟩
      cases i with
      | zero =>
        -- here one could stop only if the test above had succeeded
        rcases hi with hend | ⟨u, hu, hstarts, hdepth⟩
        · cases hend
        · cases hu
          exact absurd ⟨hdepth, Token.startsItem_iff.2 hstarts⟩ h
      | succ i => exact Nat.succ_le_succ (hleast ((hshift i).2 hi))

theorem synchronize_isLeast (c : Cursor) :
    ∃ n, c.synchronize = c.forward n ∧ IsLeast {n | StopsAt c.rest c.depth n} n := by
  obtain ⟨n, hskip, hleast⟩ := skipToItem_isLeast c.rest c.depth
  exact ⟨n, by rw [synchronize, hskip]; rfl, hleast⟩

theorem leads_synchronize (c : Cursor) : c.Leads c.synchronize := by
  obtain ⟨n, hsync, -, hleast⟩ := c.synchronize_isLeast
  exact ⟨n, hleast (.inl rfl), hsync⟩

end Cursor

namespace Call

variable {α : Type}

theorem opens_of_simpleAt {us : List Placed} {s : Stmt} (h : Attempt.SimpleAt us s) :
    Opens (us.map Placed.token) 0 := by
  have hopens := (h ⟨.char ';', 0⟩ rfl).forget.opens
  rw [List.map_append, Opens, openBraces_append] at hopens
  obtain ⟨m, hm, hend⟩ := Option.bind_eq_some_iff.1 hopens
  cases hend
  exact hm

/-- What a call reads is derivable, with as many closing braces as opening ones, or begins such a
text. -/
theorem run_derives (call : Call α) {c : Cursor}
    (hc : ∀ k ∈ call.keyword?, c.current = .keyword k) :
    ∃ Q : List Placed → α → Prop, (Attempt.ofReader call.run).Derives c Q (Derived Q) ∧
      ∀ us a, Q us a → Opens (us.map Placed.token) 0 := by
  open Attempt in
  cases call with
  | item => exact ⟨_, item_parse_parses c, fun _ _ h => h.forget.opens⟩
  | external =>
    exact ⟨_, (external_agrees c).1.derives fun n => external_derives n (hc _ rfl),
      fun _ _ h => Lettering.IsItem.opens (Lettering.IsItem.forget h)⟩
  | definition =>
    exact ⟨_, (definition_agrees c).1.derives fun n => definition_parses n c,
      fun _ _ h => Lettering.IsItem.opens (Lettering.IsItem.forget h)⟩
  | prototype =>
    exact ⟨_, (prototype_agrees c).1.derives fun n => prototype_parses n c,
      fun _ _ h => h.forget.flat.opens⟩
  | block missing =>
    exact ⟨_, (block_parse_agrees missing c).1.derives fun n => (statement_parses n).2.2.1 _ c,
      fun _ _ h => h.forget.opens⟩
  | statement =>
    exact ⟨_, (stmt_parse_agrees c).1.derives fun n => (statement_parses n).1 c,
      fun _ _ h => h.forget.opens⟩
  | declaration =>
    exact ⟨_, (declaration_agrees c).1.derives fun n => declaration_parses n c,
      fun _ _ => opens_of_simpleAt⟩
  | assignment =>
    exact ⟨_, (assignment_agrees c).1.derives fun n => assignment_parses n c,
      fun _ _ => opens_of_simpleAt⟩
  | ret =>
    exact ⟨_, (returning_agrees c).1.derives fun n => returning_derives n (hc _ rfl),
      fun _ _ => opens_of_simpleAt⟩
  | ifElse =>
    exact ⟨_, (parseIf_agrees c).1.derives fun n => (statement_parses n).2.2.2.1 c (hc _ rfl),
      fun _ _ h => h.forget.opens⟩
  | loop =>
    exact ⟨_, (parseWhile_agrees c).1.derives fun n => (statement_parses n).2.2.2.2 c (hc _ rfl),
      fun _ _ h => h.forget.opens⟩
  | expression =>
    exact ⟨_, (expression_agrees c).1.derives fun n => expression_parses n c,
      fun _ _ h => (Lettering.IsExpr.forget h).flat.opens⟩

/-- Every call is made of steps forward. -/
theorem exists_moves (call : Call α) :
    ∃ q g, (∀ c, Attempt.EndsAt q call.run c) ∧ ∀ n, Attempt.Moves id g (q n) := by
  open Attempt in
  cases call with
  | item => exact ⟨_, _, fun c => (item_agrees c).1, item_moves⟩
  | external => exact ⟨_, _, fun c => (external_agrees c).1, external_moves⟩
  | definition => exact ⟨_, _, fun c => (definition_agrees c).1, definition_moves⟩
  | prototype => exact ⟨_, _, fun c => (prototype_agrees c).1, prototype_moves⟩
  | block missing =>
    exact ⟨_, _, fun c => (block_parse_agrees missing c).1, fun n => (statement_moves n).2.2.1 _⟩
  | statement => exact ⟨_, _, fun c => (stmt_parse_agrees c).1, fun n => (statement_moves n).1⟩
  | declaration => exact ⟨_, _, fun c => (declaration_agrees c).1, declaration_moves⟩
  | assignment => exact ⟨_, _, fun c => (assignment_agrees c).1, assignment_moves⟩
  | ret => exact ⟨_, _, fun c => (returning_agrees c).1, returning_moves⟩
  | ifElse => exact ⟨_, _, fun c => (parseIf_agrees c).1, fun n => (statement_moves n).2.2.2.1⟩
  | loop => exact ⟨_, _, fun c => (parseWhile_agrees c).1, fun n => (statement_moves n).2.2.2.2⟩
  | expression => exact ⟨_, _, fun c => (expression_agrees c).1, expression_moves⟩

theorem leads_endsAt (call : Call α) (c : Cursor) : c.Leads (call.run.endsAt c) := by
  obtain ⟨q, g, hends, hmoves⟩ := call.exists_moves
  have hfollows := Attempt.follows_of_endsAt hends hmoves c
  unfold Reader.endsAt
  cases h : call.run c with
  | ok a d =>
    obtain ⟨-, us, hus, -⟩ := hfollows _ d (Attempt.ofReader_eq_ok.2 h)
    exact hus.leads
  | error e d =>
    obtain ⟨-, us, hus, -⟩ := hfollows _ d (Attempt.ofReader_eq_error.2 h)
    exact hus.leads

end Call

theorem Visited.leads {source : String} {c : Cursor} (h : Visited source c) :
    (Cursor.ofSource source).Leads c := by
  induction h with
  | start => exact .refl _
  | @next c _ ih =>
    obtain ⟨us, hus⟩ := Cursor.Reads.exists_advance c
    exact ih.trans hus.leads
  | synchronize _ ih => exact ih.trans (Cursor.leads_synchronize _)
  | call call _ ih => exact ih.trans (call.leads_endsAt _)

/-- In any state a call that succeeds has read balanced braces and leaves the depth as it was; one
that fails has added the number of blocks that it left open. (The four that begin at a keyword are
to be called there.) In every state that one can get to, the depth counts the braces from the start
of the source, and to synchronize leads from the current token to the first one where reading can be
taken up. -/
theorem brace_accounting :
    (∀ {α : Type} (call : Call α) (c : Cursor), (∀ k ∈ call.keyword?, c.current = .keyword k) →
      (∀ a d, call.run c = .ok a d → ∃ us, c.Passes us d ∧ Opens us 0 ∧ d.depth = c.depth) ∧
      ∀ e d, call.run c = .error e d → ∃ us n, c.Passes us d ∧ Opens us n ∧ d.depth = c.depth + n) ∧
    ∀ (source : String) (c : Cursor), Visited source c → ∃ k ≤ (tokens source).length,
      c = (Cursor.ofSource source).forward k ∧ c.depth = braceDepth (tokens source) 0 k ∧
        ∃ m, c.synchronize = (Cursor.ofSource source).forward m ∧
        IsLeast {m | k ≤ m ∧ StopsAt (tokens source) 0 m} m := by
  refine ⟨fun call c hc => ⟨fun a d h => ?_, fun e d h => ?_⟩, fun source c hc => ?_⟩
  · obtain ⟨Q, hderives, hopens⟩ := call.run_derives hc
    obtain ⟨us, hus, hQ⟩ := hderives _ d (Attempt.ofReader_eq_ok.2 h)
    have hus0 := hopens us a hQ
    exact ⟨_, hus.passes, hus0, by rw [hus.depth, hus0.foldl, Nat.zero_add]⟩
  · obtain ⟨Q, hderives, hopens⟩ := call.run_derives hc
    obtain ⟨us, hus, more, -, -, a, hQ⟩ := hderives _ d (Attempt.ofReader_eq_error.2 h)
    have hmore := hopens _ a hQ
    rw [List.map_append] at hmore
    obtain ⟨n, hn⟩ := hmore.exists_left
    exact ⟨_, n, hus.passes, hn, by rw [hus.depth, hn.foldl, Nat.add_comm]⟩
  · obtain ⟨k, hk, rfl⟩ := hc.leads
    obtain ⟨n, hsync, hstop, hleast⟩ := ((Cursor.ofSource source).forward k).synchronize_isLeast
    have hshift := stopsAt_drop (tokens source) hk 0
    refine ⟨k, hk, rfl, rfl, k + n, by rw [hsync, Cursor.forward_forward],
      ⟨Nat.le_add_right k n, (hshift n).1 hstop⟩, ?_⟩
    rintro m ⟨hle, hm⟩
    obtain ⟨i, rfl⟩ := Nat.exists_eq_add_of_le hle
    exact Nat.add_le_add_left (hleast ((hshift i).2 hm)) k

/-- A closing brace too many, then a body that is abandoned with a type and its own closing brace
still to come. -/
def abandonedBody : String := "\x7d int f() \x7b 1; int y; \x7d extern"

theorem brace_accounting_abandonedBody :
    ∃ (c d : Cursor) (e : SyntaxError),
      Visited abandonedBody c ∧ c.depth = 0 ∧ Call.item.run c = .error e d ∧
      (∃ us n, c.Passes us d ∧ Opens us n ∧ d.depth = c.depth + n) ∧ d.depth = 1 ∧
      ∃ k ≤ (tokens abandonedBody).length, d = (Cursor.ofSource abandonedBody).forward k ∧
        d.depth = braceDepth (tokens abandonedBody) 0 k ∧ ∃ m,
          d.synchronize = (Cursor.ofSource abandonedBody).forward m ∧
          IsLeast {m | k ≤ m ∧ StopsAt (tokens abandonedBody) 0 m} m := by
  have hc : Visited abandonedBody (Cursor.ofSource abandonedBody).advance := .next .start
  have hrun :
      Call.item.run (Cursor.ofSource abandonedBody).advance = .error ⟨.statement, 12, .int 1⟩
      (Call.item.run.endsAt (Cursor.ofSource abandonedBody).advance) := rfl
  exact ⟨_, _, _, hc, by decide +kernel, hrun, (brace_accounting.1 .item _ nofun).2 _ _ hrun,
    by decide +kernel, brace_accounting.2 _ _ (.call .item hc)⟩

end ImpFront
