import Mathlib.Data.List.DropRight
import Tapeworks.Proofs.Machine.Coherent

/-! The limit of the trace. A machine with a limit is shadowed by one without, which does the same and records all. What
    the first has of its record is the latest part of that, whenever the limit is set; and while one limit stays, it is
    as much of the latest part as the limit allows. -/

namespace Tapeworks.Machine

variable {m m' : Machine} {op : Operation} {ops ops' : List Operation} {limit : Option Nat} {n : Nat}

/-! ### Setting the limit -/

/-- What is left of some operations without those that set the limit of the trace. -/
def unlimited (ops : List Operation) : List Operation :=
  ops.filter fun op => !op.limitsTrace

/-- The second operations are the first with some put in that set the limit of the trace. -/
inductive LimitsInserted : List Operation → List Operation → Prop
  | nil : LimitsInserted [] []
  | kept {ops ops' : List Operation} (op : Operation) : LimitsInserted ops ops' →
      LimitsInserted (op :: ops) (op :: ops')
  | inserted {ops ops' : List Operation} (limit : Option Nat) : LimitsInserted ops ops' →
      LimitsInserted ops (.setTraceLimit limit :: ops')

/-- The replies to all operations but those that set the limit of the trace. -/
def replies (m : Machine) : List Operation → List Reply
  | [] => []
  | op :: ops =>
    if op.limitsTrace then (m.perform op).2.replies ops else (m.perform op).1 :: (m.perform op).2.replies ops

/-- The trace that operations leave where no limit is ever set. -/
def wholeTrace (m : Machine) (ops : List Operation) : List Snapshot :=
  ((m.setTraceLimit none).after (unlimited ops)).trace

/-- The operations `ops'` get the replies of `ops` and leave a machine that differs in its trace and its limit alone. Its
    trace is the latest part of the whole one. -/
structure Unaffected (m : Machine) (ops ops' : List Operation) : Prop where
  replies : m.replies ops' = m.replies ops
  table : (m.after ops').table = (m.after ops).table
  configuration : (m.after ops').configuration = (m.after ops).configuration
  status : (m.after ops').status = (m.after ops).status
  stepCount : (m.after ops').stepCount = (m.after ops).stepCount
  trace : (m.after ops').trace <:+ m.wholeTrace ops

theorem LimitsInserted.unlimited_eq (h : LimitsInserted ops ops') : unlimited ops' = unlimited ops := by
  induction h with
  | nil => rfl
  | kept op _ ih => rw [unlimited, unlimited, List.filter_cons, List.filter_cons, ← unlimited, ih, ← unlimited]
  | inserted limit _ ih => exact ih

theorem unlimited_eq_self (h : ∀ op ∈ ops, ¬op.limitsTrace) : unlimited ops = ops :=
  List.filter_eq_self.mpr fun op hop => by simp [h op hop]

/-! ### What is kept of a record -/

/-- A relation between the limit, what is kept of a record and the whole of it. -/
abbrev Recall := Option Nat → List Snapshot → List Snapshot → Prop

/-- The relation survives an empty record and one more snapshot. -/
structure Recall.Steady (K : Recall) : Prop where
  nil : ∀ limit history whole, K limit history whole → K limit [] []
  cons : ∀ limit history whole s, K limit history whole → K limit (kept limit (s :: history)) (s :: whole)

/-- The relation survives every limit that one of the operations sets. -/
def Recall.Bears (K : Recall) (ops : List Operation) : Prop :=
  ∀ limit, .setTraceLimit limit ∈ ops → ∀ limit' history whole, K limit' history whole →
    K limit (kept limit history) whole

/-- Any number of the latest snapshots is kept. -/
def Recall.latest : Recall :=
  fun _ history whole => history <+: whole

/-- The latest `n` snapshots are kept, and `n` is the limit. -/
def Recall.window (n : Nat) : Recall :=
  fun limit history whole => limit = some n ∧ history = whole.take n

theorem Recall.steady_latest : Steady latest where
  nil _ _ _ _ := List.prefix_refl []
  cons limit history whole s h := by
    have hkept : kept limit (s :: history) <+: s :: history := kept_prefix limit _
    exact hkept.trans ((List.prefix_cons_inj s).mpr h)

theorem Recall.bears_latest (ops : List Operation) : latest.Bears ops := by
  intro limit _ _ history whole h
  have hkept : kept limit history <+: history := kept_prefix limit history
  exact hkept.trans h

theorem Recall.steady_window (n : Nat) : Steady (window n) where
  nil _ _ _ h := ⟨h.1, List.take_nil.symm⟩
  cons limit history whole s h := by
    obtain ⟨rfl, rfl⟩ := h
    refine ⟨rfl, ?_⟩
    cases n with
    | zero => rfl
    | succ n => simp [kept, List.take_take]

theorem Recall.bears_window (n : Nat) (h : ∀ op ∈ ops, ¬op.limitsTrace) : (window n).Bears ops := by
  intro limit hlimit
  exact absurd rfl (h _ hlimit)

/-! ### Shadows -/

/-- The machine `m'` has no limit and agrees with `m` on all but the record. -/
structure Shadows (K : Recall) (m m' : Machine) : Prop where
  table : m.table = m'.table
  configuration : m.configuration = m'.configuration
  status : m.status = m'.status
  stepCount : m.stepCount = m'.stepCount
  unlimited : m'.traceLimit = none
  history : K m.traceLimit m.history m'.history

theorem shadows_latest (m : Machine) : Shadows .latest m (m.setTraceLimit none) :=
  ⟨rfl, rfl, rfl, rfl, rfl, List.prefix_refl m.history⟩

theorem shadows_window (m : Machine) (n : Nat) :
    Shadows (.window n) (m.setTraceLimit (some n)) (m.setTraceLimit none) :=
  ⟨rfl, rfl, rfl, rfl, rfl, rfl, rfl⟩

namespace Shadows

variable {K : Recall} (hK : K.Steady)

theorem state (h : Shadows K m m') : m.state = m'.state :=
  congrArg Configuration.state h.configuration

theorem tape (h : Shadows K m m') : m.tape = m'.tape :=
  congrArg Configuration.tape h.configuration

theorem snapshot (h : Shadows K m m') : m.snapshot = m'.snapshot := by
  unfold Machine.snapshot
  rw [h.stepCount, h.state, h.tape]

theorem ended (h : Shadows K m m') : (m.isHalted || m.state.isFinal) = (m'.isHalted || m'.state.isFinal) := by
  unfold isHalted
  rw [h.status, h.state]

section Steps

include hK

theorem moveTo (h : Shadows K m m') (c : Configuration) : Shadows K (m.moveTo c) (m'.moveTo c) := by
  have hcount : m.stepCount + 1 = m'.stepCount + 1 := congrArg (· + 1) h.stepCount
  refine ⟨h.table, rfl, rfl, hcount, h.unlimited, ?_⟩
  unfold Machine.moveTo Machine.snapshot
  rw [h.unlimited, hcount]
  exact hK.cons _ _ _ _ h.history

theorem lockstep : Lockstep (Shadows K) := fun m m' h => by
  have hmove : m'.table.move m'.configuration = m.table.move m.configuration := by rw [h.table, h.configuration]
  unfold step
  rw [← h.status, hmove]
  split
  · exact Or.inl ⟨_, m, m', rfl, rfl, h⟩
  · cases m.table.move m.configuration with
    | error halt =>
      exact Or.inl ⟨halt, _, _, rfl, rfl, h.table, h.configuration, rfl, h.stepCount, h.unlimited, h.history⟩
    | ok c => exact Or.inr ⟨_, _, rfl, rfl, h.moveTo hK c⟩

theorem concord : Concord (Shadows K) where
  lockstep := lockstep hK
  ended _ _ h := h.ended
  snapshot _ _ h := h.snapshot
  tape _ _ h := h.tape
  setTape _ _ h _ :=
    ⟨h.table, congrArg (Configuration.mk · _) h.state, rfl, h.stepCount, h.unlimited, h.history⟩

end Steps

/-! ### Operations on both machines -/

/-- An edit of both machines is refused for one reason, or it keeps the one the shadow of the other. -/
theorem edited (h : Shadows K m m') {r r' : Except RunError Machine}
    (hr : (∃ e, r = .error e ∧ r' = .error e) ∨ ∃ n n', r = .ok n ∧ r' = .ok n' ∧ Shadows K n n') :
    (m.edited r).1 = (m'.edited r').1 ∧ Shadows K (m.edited r).2 (m'.edited r').2 := by
  rcases hr with ⟨e, rfl, rfl⟩ | ⟨n, n', rfl, rfl, hn⟩
  · exact ⟨rfl, h⟩
  · exact ⟨rfl, hn⟩

theorem edited_setState (h : Shadows K m m') (id : String) :
    (m.edited (m.setState id)).1 = (m'.edited (m'.setState id)).1 ∧
      Shadows K (m.edited (m.setState id)).2 (m'.edited (m'.setState id)).2 := by
  refine h.edited ?_
  unfold setState
  rw [← h.table]
  cases stateNamed m.table id with
  | error e => exact Or.inl ⟨e, rfl, rfl⟩
  | ok s =>
    have hplace : Configuration.mk s m.tape = ⟨s, m'.tape⟩ := by rw [h.tape]
    exact Or.inr ⟨_, _, rfl, rfl, rfl, hplace, rfl, h.stepCount, h.unlimited, h.history⟩

include hK

theorem edited_reset (h : Shadows K m m') : (m.edited m.reset).1 = (m'.edited m'.reset).1 ∧
    Shadows K (m.edited m.reset).2 (m'.edited m'.reset).2 := by
  refine h.edited ?_
  unfold reset
  rw [← h.table, ← h.tape]
  cases m.table.start with
  | error e => exact Or.inl ⟨e, rfl, rfl⟩
  | ok s => exact Or.inr ⟨_, _, rfl, rfl, rfl, rfl, rfl, rfl, h.unlimited, hK.nil _ _ _ h.history⟩

/-- An operation that does not set the limit gets one reply from both machines. -/
theorem perform (h : Shadows K m m') (hop : ¬op.limitsTrace) :
    (m.perform op).1 = (m'.perform op).1 ∧ Shadows K (m.perform op).2 (m'.perform op).2 := by
  by_cases hplaces : op.placesState
  · cases op with
    | reset => exact h.edited_reset hK
    | setState id => exact h.edited_setState id
    | _ => cases hplaces
  · exact (concord hK).perform h hplaces hop

/-- Operations get one list of replies from both machines, where those that set the limit go to the first alone. -/
theorem after (hops : K.Bears ops) (h : Shadows K m m') :
    m.replies ops = m'.replies (Machine.unlimited ops) ∧
      Shadows K (m.after ops) (m'.after (Machine.unlimited ops)) := by
  induction ops generalizing m m' with
  | nil => exact ⟨rfl, h⟩
  | cons op ops ih =>
    have hrest : K.Bears ops := fun limit hlimit => hops limit (List.mem_cons_of_mem _ hlimit)
    cases hop : op.limitsTrace with
    | true =>
      obtain ⟨limit, rfl⟩ : ∃ limit, op = .setTraceLimit limit := by
        cases op <;> first | exact ⟨_, rfl⟩ | cases hop
      have hlimited : Shadows K (m.setTraceLimit limit) m' := ⟨h.table, h.configuration, h.status, h.stepCount,
        h.unlimited, hops limit List.mem_cons_self _ _ _ h.history⟩
      exact ih hrest hlimited
    | false =>
      have hlimits : ¬op.limitsTrace := by simp [hop]
      obtain ⟨hreply, hnext⟩ := h.perform hK hlimits
      obtain ⟨hreplies, hafter⟩ := ih hrest hnext
      have hcons : Machine.unlimited (op :: ops) = op :: Machine.unlimited ops :=
        List.filter_cons_of_pos (by simp [hop])
      rw [hcons]
      refine ⟨?_, hafter⟩
      rw [replies, replies, hop, if_neg Bool.false_ne_true, if_neg Bool.false_ne_true, hreply, hreplies]

end Shadows

/-! ### The trace -/

/-- Without a limit, operations that set none get the same replies and leave the machine in the same place. -/
theorem shadows_after (m : Machine) (ops : List Operation) :
    m.replies ops = (m.setTraceLimit none).replies (unlimited ops) ∧
      Shadows .latest (m.after ops) ((m.setTraceLimit none).after (unlimited ops)) :=
  (shadows_latest m).after Recall.steady_latest (Recall.bears_latest ops)

theorem unaffected_of_inserted (m : Machine) (h : LimitsInserted ops ops') : Unaffected m ops ops' := by
  obtain ⟨hreplies, hshadow⟩ := shadows_after m ops
  obtain ⟨hreplies', hshadow'⟩ := shadows_after m ops'
  rw [h.unlimited_eq] at hreplies' hshadow'
  exact {
    replies := hreplies'.trans hreplies.symm
    table := hshadow'.table.trans hshadow.table.symm
    configuration := hshadow'.configuration.trans hshadow.configuration.symm
    status := hshadow'.status.trans hshadow.status.symm
    stepCount := hshadow'.stepCount.trans hshadow.stepCount.symm
    trace := List.reverse_suffix.mpr hshadow'.history }

/-- As long as a limit is not changed, the trace holds as many of the latest snapshots as it allows. -/
theorem trace_after_setTraceLimit (m : Machine) (n : Nat) (h : ∀ op ∈ ops, ¬op.limitsTrace) :
    ((m.setTraceLimit (some n)).after ops).trace = (m.wholeTrace ops).rtake n := by
  obtain ⟨-, hshadow⟩ := (shadows_window m n).after (Recall.steady_window n) (Recall.bears_window n h)
  rw [unlimited_eq_self h] at hshadow
  rw [trace, hshadow.history.2, wholeTrace, unlimited_eq_self h, trace, List.rtake_eq_reverse_take_reverse,
    List.reverse_reverse]

/-- The limit of the trace has no influence on anything but the trace, and while it stays the trace is the last part of
    the whole trace that is as long as the limit allows. -/
theorem traceLimit_inert :
    (∀ m ops ops', LimitsInserted ops ops' → Unaffected m ops ops') ∧
      ∀ (m : Machine) (n : Nat) (ops : List Operation), (∀ op ∈ ops, ¬op.limitsTrace) →
        ((m.setTraceLimit (some n)).after ops).trace = (m.wholeTrace ops).rtake (min n (m.wholeTrace ops).length) := by
  refine ⟨fun m ops ops' h => unaffected_of_inserted m h, fun m n ops h => ?_⟩
  rw [trace_after_setTraceLimit m n h, List.rtake, List.rtake]
  congr 1
  omega

/-- The walker with its limit taken down, lifted and set to nothing between its operations; and with room for one. -/
theorem traceLimit_inert_walker :
    let m := inState (compile walker).table ⟨[], 'a', ['a', '_', 'b']⟩ { id := "1", isStart := true }
    Unaffected m [.run 2, .setHead 9, .paced 3, .reset, .step] [.setTraceLimit (some 1), .run 2, .setHead 9,
        .setTraceLimit none, .paced 3, .setTraceLimit (some 0), .reset, .setTraceLimit (some 5), .step] ∧
      ((m.setTraceLimit (some 1)).after [.step, .run 1]).trace =
        (m.wholeTrace [.step, .run 1]).rtake (min 1 (m.wholeTrace [.step, .run 1]).length) :=
  ⟨traceLimit_inert.1 _ _ _ (.inserted _ (.kept _ (.kept _ (.inserted _ (.kept _ (.inserted _ (.kept _ (.inserted _
      (.kept _ .nil))))))))), traceLimit_inert.2 _ 1 [.step, .run 1] (by decide)⟩

end Tapeworks.Machine
