import Mathlib
import ImpFront.Proofs.Chart
import ImpFront.Proofs.Failure

/-! Where instructions go. A recorder has no place for an instruction unless it is positioned at a
block, and drops one that is meant for a block that does not exist. Lowering never comes to either:
a recorder that also watches what is written to it sees every instruction arrive at the end of a
block of the function that is lowered. -/

namespace ImpFront

open Lower

/-- The register that is defined next at the position. -/
def Recorder.dst (r : Recorder) : Reg := (r.position.map r.nextReg).getD ⟨0⟩

/-- The instruction that an operation writes to a recorder, if it writes one. -/
def Op.instr? (r : Recorder) {α : Type} : Op α → Option Instr
  | .load ty ptr => some (.load r.dst ty ptr)
  | .store value ptr => some (.store value ptr)
  | .arith op ty left right => some (.arith r.dst op ty left right)
  | .compare predicate ty left right => some (.compare r.dst predicate ty left right)
  | .cast kind value => some (.cast r.dst kind value)
  | .stackAlloc ty name => some (.stackAlloc r.dst ty name)
  | .heapAlloc ty name => some (.heapAlloc r.dst ty name)
  | .heapFree ptr => some (.heapFree ptr)
  | .branch target => some (.branch (r.label target))
  | .condBranch cond yes no => some (.condBranch cond (r.label yes) (r.label no))
  | .ret value => some (.ret value)
  | .unreachable => some .unreachable
  | .call f args => some (.call r.dst (((r.function? f).map Func.name).getD "") args)
  | .comment text => some (.comment text)
  | .constInt _ | .constDouble _ | .appendBlock .. | .positionAtEnd _ | .isTerminated
  | .declareFunction .. | .getFunction _ | .functionParam .. | .discardFunction _
  | .clearBody _ => none

/-- An instruction that is written, and the recorder before and after that. -/
structure Write where
  before : Recorder
  instr : Instr
  after : Recorder

/-- The instruction is appended to a block that exists, in the function of the given name. -/
def Write.AppendsTo (x : Write) (name : String) : Prop :=
  ∃ b B, x.before.position = some b ∧ x.before.find? name = some b.function ∧
    x.before.block? b = some B ∧
    x.after.block? b = some { B with code := B.code ++ [x.instr] }

/-- A recorder, and all that was written to it, the first first. -/
structure Watched where
  recorder : Recorder
  writes : List Write

namespace Watched

def perform {α : Type} (op : Op α) : EStateM NoInsertionBlock Watched α := fun t =>
  match Recorder.perform op t.recorder with
  | .ok a r => .ok a ⟨r, t.writes ++ (op.instr? t.recorder).toList.map fun i => ⟨t.recorder, i, r⟩⟩
  | .error e r => .error e ⟨r, t.writes⟩

instance : Emitter Watched := ⟨perform⟩

end Watched

/-- The same state, with its target under watch. -/
def Lowering.watched (s : Lowering Recorder) (writes : List Write) : Lowering Watched :=
  s.retarget ⟨s.target, writes⟩

namespace Recorder

variable {r r' : Recorder} {α : Type} {op : Op α} {a : α} {p : BlockRef} {i : Instr} {name : String}

theorem dst_at (hp : r.position = some p) : r.dst = r.nextReg p := by
  rw [dst, hp]
  rfl

/-- The instruction is appended to the block, and otherwise at most registers are counted. -/
def Appends (r : Recorder) (p : BlockRef) (i : Instr) (r' : Recorder) : Prop :=
  ∃ g : Func → Func,
    (∀ F, (g F).name = F.name) ∧ (∀ F, (g F).blocks = (F.append p.block i).blocks) ∧
    r' = r.modifyFunction p.function g

theorem appends_push {u : Unit} (hp : r.position = some p) (h : push i r = .ok u r') :
    r.Appends p i r' := by
  rw [push_at hp] at h
  cases h
  exact ⟨Func.append p.block i, fun _ => rfl, fun _ => rfl, rfl⟩

theorem appends_define {v : Value} {instr : Reg → Instr} (hp : r.position = some p)
    (hi : instr (r.nextReg p) = i) (h : define instr r = .ok v r') : r.Appends p i r' := by
  rw [define_at hp] at h
  cases h
  subst hi
  exact ⟨fun F => (F.append p.block (instr (r.nextReg p))).addRegister, fun _ => rfl, fun _ => rfl,
    rfl⟩

/-- A recorder that is positioned appends each instruction to the block of its position. -/
theorem appends_of_instr? (hp : r.position = some p) (hi : op.instr? r = some i)
    (h : perform op r = .ok a r') :
    r.Appends p i r' := by
  cases op with
  | load | arith | compare | cast | stackAlloc | heapAlloc | call =>
    simp only [Op.instr?, dst_at hp, Option.some.injEq] at hi
    simp only [perform] at h
    exact appends_define hp hi h
  | store | heapFree | ret | unreachable | branch | condBranch =>
    cases hi
    exact appends_push hp h
  | comment text =>
    cases hi
    rw [comment_at hp] at h
    exact appends_push hp h
  | _ => cases hi

theorem Appends.block? (h : r.Appends p i r') {B : BasicBlock} (hB : r.block? p = some B) :
    r'.block? p = some { B with code := B.code ++ [i] } := by
  obtain ⟨g, -, hg, rfl⟩ := h
  rw [block?_write hg, if_pos rfl, hB]
  rfl

theorem find?_modifyFunction {g : Func → Func} (hg : ∀ F, (g F).name = F.name) (f : FunctionId)
    (name : String) :
    (r.modifyFunction f g).find? name = r.find? name := by
  let named : Option Func → Bool := fun slot => slot.any fun F => F.name = name
  have hslot : ∀ slot, named (slot.map g) = id (named slot) := by
    rintro (_ | F)
    · rfl
    · exact congrArg (fun x => decide (x = name)) (hg F)
  -- the search sees of a slot only whether it has the name
  have hfind : ∀ l : List (Option Func), l.findIdx? named = (l.map named).findIdx? id := by
    intro l
    rw [List.findIdx?_map]
    rfl
  have hslots := map_modify hslot r.functions f.index
  rw [List.modify_id] at hslots
  show ((r.functions.modify f.index (Option.map g)).findIdx? named).map Handle.mk =
    (r.functions.findIdx? named).map Handle.mk
  rw [hfind, hslots, ← hfind]

theorem find?_declare_self (h : r.find? name = none) (signature : Signature) :
    (r.declare name signature).2.find? name = some ⟨r.functions.length⟩ := by
  have hnone := Option.map_eq_none_iff.1 h
  simp only [find?, declare, List.findIdx?_append, hnone]
  simp

theorem find?_declare {f : FunctionId} (h : r.find? name = some f) (other : String)
    (signature : Signature) :
    (r.declare other signature).2.find? name = some f := by
  obtain ⟨j, hj, rfl⟩ := Option.map_eq_some_iff.1 h
  simp only [find?, declare, List.findIdx?_append, hj]
  rfl

theorem Appends.find? (h : r.Appends p i r') (name : String) : r'.find? name = r.find? name := by
  obtain ⟨g, hg, -, rfl⟩ := h
  exact find?_modifyFunction hg p.function name

/-- An operation that writes no instruction and takes no function back leaves the functions under
their names. -/
theorem find?_of_instr?_eq_none {f : FunctionId} (hf : r.find? name = some f)
    (hi : op.instr? r = none) (hback : op.takenBack? = none) (h : perform op r = .ok a r') :
    r'.find? name = some f := by
  cases op with
  | constInt | constDouble | functionParam | isTerminated | getFunction | positionAtEnd =>
    cases h
    exact hf
  | declareFunction other signature =>
    cases h
    exact find?_declare hf other signature
  | appendBlock g hint =>
    cases hG : r.function? g with
    | none =>
      simp only [perform, answer, appendBlock, hG] at h
      cases h
      exact hf
    | some G =>
      rw [perform_appendBlock hG] at h
      cases h
      rw [find?_modifyFunction (g := Func.addBlock hint) fun _ => rfl]
      exact hf
  | discardFunction | clearBody => cases hback
  | _ => cases hi

end Recorder

namespace Op

variable {α : Type} {op : Op α} {w : Known}

theorem placed_of_instr? {r : Recorder} {i : Instr} (hi : op.instr? r = some i)
    (h : op.Admissible w) : w.placed = true := by
  cases op with
  | call | branch | condBranch => exact h.1
  | load | arith | compare | cast | stackAlloc | heapAlloc | store | heapFree | ret | unreachable
  | comment => exact h
  | _ => cases hi

/-- The function that is lowered stays the same until it is taken back. -/
theorem owner_next {f : FunctionId} {a : α} (h : (op.next w a).owner = some f) :
    w.owner = some f ∧ op.takenBack? = none := by
  cases op with
  | discardFunction | clearBody => cases h
  | _ => exact ⟨h, rfl⟩

end Op

namespace Watched

/-- The watched recorder keeps the same code as the other one, and while the function `f` of the
given name is lowered, all that is written goes into its blocks. -/
structure Keeps (name : String) (old : List Write) (f : FunctionId) (w : Known) (r : Recorder)
    (t : Watched) : Prop where
  recorder : t.recorder = r
  holds : r.Holds w
  found : w.owner = some f → r.find? name = some f
  writes : w.owner = some f → ∃ new, t.writes = old ++ new ∧ ∀ x ∈ new, x.AppendsTo name

variable {name : String} {old : List Write} {f : FunctionId}

theorem answers : Emitter.Answers (Keeps name old f) where
  perform {w r t α} op hop h := by
    obtain ⟨rfl, hholds, hfound, hwrites⟩ := h
    obtain ⟨a, r', hr, hholds'⟩ := hholds.perform op hop
    refine ⟨a, r', _, hr, by simp only [Emitter.perform, perform, hr]; rfl, rfl, hholds',
      fun hf => ?_, fun hf => ?_⟩
    · obtain ⟨howner, hback⟩ := Op.owner_next hf
      cases hi : op.instr? t.recorder with
      | none => exact Recorder.find?_of_instr?_eq_none (hfound howner) hi hback hr
      | some i =>
        obtain ⟨p, -, hp⟩ := hholds.placed (Op.placed_of_instr? hi hop)
        rw [(Recorder.appends_of_instr? hp hi hr).find?, hfound howner]
    · obtain ⟨howner, -⟩ := Op.owner_next hf
      obtain ⟨new, hnew, hall⟩ := hwrites howner
      cases hi : op.instr? t.recorder with
      | none => exact ⟨new, by simpa using hnew, hall⟩
      | some i =>
        obtain ⟨p, hpmem, hp⟩ := hholds.placed (Op.placed_of_instr? hi hop)
        obtain ⟨hsome, hpf⟩ := hholds.blocks p hpmem
        obtain ⟨B, hB⟩ := Option.isSome_iff_exists.1 hsome
        refine ⟨new ++ [⟨t.recorder, i, r'⟩], by simp [hnew], ?_⟩
        intro x hx
        rcases List.mem_append.1 hx with hx | hx
        · exact hall x hx
        · rw [List.mem_singleton.1 hx]
          refine ⟨p, B, hp, ?_, hB, (Recorder.appends_of_instr? hp hi hr).block? hB⟩
          rw [hfound howner, ← howner, hpf]

end Watched

namespace Lower

variable {α β : Type} {s s' : Lowering Recorder} {old : List Write}

/-- Under watch a computation ends as it does without, and what it writes goes into the function of
the given name. -/
def Watches (name : String) (x : Lower Recorder α) (y : Lower Watched α) (s : Lowering Recorder)
    (old : List Write) : Prop :=
  ∃ new, (∀ x ∈ new, Write.AppendsTo x name) ∧
    ((∃ a s', x s = .ok a s' ∧ y (s.watched old) = .ok a (s'.watched (old ++ new))) ∨
      ∃ e s', x s = .error e s' ∧ y (s.watched old) = .error e (s'.watched (old ++ new)))

theorem watches_error {name : String} {x : Lower Recorder α} {y : Lower Watched α} {e : LowerError}
    (hx : x s = .error e s) (hy : y (s.watched old) = .error e (s.watched old)) :
    Watches name x y s old :=
  ⟨[], by simp, .inr ⟨e, s, hx, by rwa [List.append_nil]⟩⟩

theorem emit_watched {op : Op α} {a : α} (hi : op.instr? s.target = none)
    (h : emit op s = .ok a s') :
    emit op (s.watched old) = .ok a (s'.watched old) := by
  have hwatched : Emitter.perform op (s.watched old).target = Watched.perform op ⟨s.target, old⟩ :=
    rfl
  simp only [emit] at h ⊢
  cases hr : Emitter.perform op s.target with
  | error e r =>
    rw [hr] at h
    cases h
  | ok b r =>
    have hr' : Recorder.perform op s.target = .ok b r := hr
    rw [hr] at h
    cases h
    rw [hwatched]
    simp only [Watched.perform, hr', hi, Option.toList_none, List.map_nil, List.append_nil]
    rfl

theorem functionHandle_watched {pos : Nat} {name : String} {f : FunctionId}
    (h : functionHandle pos name s = .ok f s') :
    functionHandle pos name (s.watched old) = .ok f (s'.watched old) := by
  obtain ⟨g, s₁, hget, hrest⟩ := bind_eq_ok.1 h
  refine (bind_of_ok (emit_watched rfl hget)).trans ?_
  cases g with
  | some g =>
    cases hrest
    rfl
  | none =>
    obtain ⟨signature, s₂, hsig, hdeclare⟩ := bind_eq_ok.1 hrest
    have hsig' : signatureOf pos name (s₁.watched old) = .ok signature (s₂.watched old) := by
      unfold signatureOf at hsig ⊢
      have hsame : (s₁.watched old).signatures = s₁.signatures := rfl
      rw [hsame]
      cases hf : s₁.signatures.find? name with
      | none => simp [hf] at hsig
      | some signature' =>
        rw [hf] at hsig
        cases hsig
        rfl
    exact (bind_of_ok hsig').trans (emit_watched rfl hdeclare)

end Lower

section

variable {p : Prototype} {s : Lowering Recorder}

theorem Lower.register_watched {s' : Lowering Recorder} (h : register p s = .ok () s')
    (old : List Write) :
    register p (s.watched old) = .ok () (s'.watched old) := by
  have hsame : (s.watched old).signatures = s.signatures := rfl
  unfold register at h ⊢
  rw [hsame]
  cases hreg : s.signatures.register p.name p.signature with
  | error fault => simp [hreg] at h
  | ok Γ =>
    rw [hreg] at h
    cases h
    rfl

theorem Lower.register_watched_error {fault : Fault}
    (h : s.signatures.register p.name p.signature = .error fault) (old : List Write) :
    register p (s.watched old) = .error ⟨fault, p.pos⟩ (s.watched old) := by
  have hsame : (s.watched old).signatures = s.signatures := rfl
  simp only [register, hsame, h]

end

theorem Definition.Opens.watched {d : Definition} {s t : Lowering Recorder}
    {found : Option FunctionId} {f : FunctionId} (h : d.Opens s found f t) (old : List Write) :
    d.Opens (s.watched old) found f (t.watched old) := by
  obtain ⟨hd, s₁, hreg, hget, hhandle⟩ := h
  exact ⟨hd, s₁.watched old, register_watched hreg old, emit_watched rfl hget,
    functionHandle_watched hhandle⟩

theorem Definition.Begun.find?_start {d : Definition} {s : Lowering Recorder} {S : Site} {F : Func}
    (h : d.Begun s S F) :
    S.start.target.find? d.prototype.name = some S.id := by
  rcases h.place with ⟨hf, ht⟩ | ⟨hf, hid, ht⟩
  · rw [ht, hf]
  · rw [ht, hid, Recorder.find?_declare_self hf]

/-- The body of a function writes into the blocks of that function only. -/
theorem Definition.lowerBody_watches {d : Definition} {s : Lowering Recorder} {S : Site} {F : Func}
    (hb : d.Begun s S F) (old : List Write) :
    Watches d.prototype.name (d.lowerBody S.id) (d.lowerBody S.id) S.start old := by
  let w : Known := ⟨[], some S.id, [], false⟩
  have hholds : S.start.target.Holds w := by
    refine ⟨by simp [w], fun f hf => ?_, by simp [w], by simp [w]⟩
    obtain rfl : S.id = f := Option.some.inj hf
    rw [hb.func]
    rfl
  have hkeeps : Watched.Keeps d.prototype.name old S.id w S.start.target ⟨S.start.target, old⟩ :=
    ⟨rfl, hholds, fun _ => hb.find?_start, fun _ => ⟨[], by simp, by simp⟩⟩
  have htied : S.start.Tied w := by rw [Lowering.Tied, S.current]; rfl
  obtain ⟨w', s', t', hw', ⟨hrecorder, -, -, hwrites⟩, -, hend⟩ :=
    d.lowerBody_alike Watched.answers (w := w) (f := S.id) rfl S.start _ hkeeps htied
  obtain ⟨new, hnew, hall⟩ := hwrites hw'.owner
  obtain rfl : t' = ⟨s'.target, old ++ new⟩ := by rw [← hrecorder, ← hnew]
  rcases hend with ⟨_, hok, hok', -⟩ | ⟨e, herr, herr'⟩
  · exact ⟨new, hall, .inl ⟨_, s', hok, hok'⟩⟩
  · exact ⟨new, hall, .inr ⟨e, s', herr, herr'⟩⟩

theorem Definition.lower_watches (d : Definition) (s : Lowering Recorder) (old : List Write) :
    Watches d.prototype.name d.lower d.lower s old := by
  cases hd : s.signatures.isDefined d.prototype.name with
  | true =>
    have hdef : isDefined d.prototype.name (s.watched old) = .ok true (s.watched old) := by
      rw [← hd]; rfl
    exact watches_error (d.lower_redefined hd) (bind_of_ok hdef)
  | false =>
    cases hreg : s.signatures.register d.prototype.name d.prototype.signature with
    | error fault =>
      have hdef : isDefined d.prototype.name (s.watched old) = .ok false (s.watched old) := by
        rw [← hd]; rfl
      have herr := register_watched_error hreg old
      exact watches_error (d.lower_conflicting hd hreg)
        ((bind_of_ok hdef).trans (bind_of_error herr))
    | ok Γ =>
      obtain ⟨S, F, hb, t, hhandle, hstart⟩ := d.exists_begun hd hreg
      have hopens : d.Opens s (s.target.find? d.prototype.name) S.id t :=
        ⟨hd, { s with signatures := Γ }, by simp only [register, hreg], rfl, hhandle⟩
      have hinside : t.inside S.id d.prototype.ret = S.start := hstart.symm
      have hinside' : (t.watched old).inside S.id d.prototype.ret = S.start.watched old := by
        rw [← hinside]; rfl
      obtain ⟨new, hall, ⟨_, u, hok, hok'⟩ | ⟨e, u, herr, herr'⟩⟩ := d.lowerBody_watches hb old
      · refine ⟨new, hall, .inl ⟨S.id, _, hopens.lower_ok (by rw [hinside]; exact hok), ?_⟩⟩
        exact (hopens.watched old).lower_ok (by rw [hinside']; exact hok')
      · have hquiet :
            (Op.takeBack (s.target.find? d.prototype.name) S.id).instr? u.rest.target = none := by
          unfold Op.takeBack
          split
          · rfl
          · rfl
        have hback := emit_takeBack (s.target.find? d.prototype.name) S.id u.rest
        refine ⟨new, hall, .inr ⟨e, _, hopens.lower_error (by rw [hinside]; exact herr) hback, ?_⟩⟩
        exact (hopens.watched old).lower_error (u := u.watched (old ++ new))
          (by rw [hinside']; exact herr') (emit_watched hquiet hback)

theorem Item.lower_watches (item : Item) (s : Lowering Recorder) (old : List Write) :
    Watches item.name item.lower item.lower s old := by
  cases item with
  | external p =>
    cases hreg : s.signatures.register p.name p.signature with
    | error fault =>
      have herr : register p s = .error ⟨fault, p.pos⟩ s := by simp only [register, hreg]
      exact watches_error herr (register_watched_error hreg old)
    | ok Γ =>
      have hok : register p s = .ok () { s with signatures := Γ } := by simp only [register, hreg]
      refine ⟨[], by simp, .inl ⟨(), _, hok, ?_⟩⟩
      rw [List.append_nil]
      exact register_watched hok old
  | definition d =>
    obtain ⟨new, hall, ⟨f, t, hok, hok'⟩ | ⟨e, t, herr, herr'⟩⟩ := d.lower_watches s old
    · exact ⟨new, hall, .inl ⟨(), t, bind_of_ok hok, bind_of_ok hok'⟩⟩
    · exact ⟨new, hall, .inr ⟨e, t, bind_of_error herr, bind_of_error herr'⟩⟩

theorem Item.fault_ne_internal {item : Item} {s s' : Lowering Recorder} {e : LowerError}
    (h : item.lower s = .error e s') (cause : String) : e.fault ≠ .internal cause := by
  intro hfault
  have heffect := item.lower_effect s
  rw [h] at heffect
  cases heffect with
  | refused hrefused =>
    rcases hrefused with hrefused | hrefused <;> cases hfault.symm.trans hrefused
  | abandoned hb _ hbody =>
    have hin := hb.inBody_of_error hbody
    rw [hfault] at hin
    cases hin

/-- Whatever was compiled before, by this session or by others, an item never fails with an internal
error, and every instruction that it emits, also one of a body that is taken back later, arrives at
the end of a block that exists in the function of the item. -/
theorem Item.lower_emits_into_blocks (item : Item) (s : Lowering Recorder) :
    ∃ writes : List Write, (∀ x ∈ writes, x.AppendsTo item.name) ∧
      ((∃ t, item.lower s = .ok () t ∧ item.lower (s.watched []) = .ok () (t.watched writes)) ∨
        ∃ e t, item.lower s = .error e t ∧ item.lower (s.watched []) = .error e (t.watched writes) ∧
          ∀ cause, e.fault ≠ .internal cause) := by
  obtain ⟨writes, hall, ⟨_, t, hok, hok'⟩ | ⟨e, t, herr, herr'⟩⟩ := item.lower_watches s []
  · exact ⟨writes, hall, .inl ⟨t, hok, hok'⟩⟩
  · exact ⟨writes, hall, .inr ⟨e, t, herr, herr', Item.fault_ne_internal herr⟩⟩

end ImpFront
