import Mathlib.Data.List.Chain
import Tapeworks.Proofs.Machine.Textbook

/-! What is true of every machine that can arise. Its state is one that the table has, its trace holds the latest
    snapshots in order and no more of them than the limit allows, and its status is true of its configuration: after a
    move it stands where the last snapshot shows it, and its halt is the one that a step would find anew. -/

namespace Tapeworks

/-! ### States of the table -/

/-- Every rule leads to a state that the table has. -/
def Table.Closed (t : Table) : Prop :=
  ∀ id, ∀ r ∈ t.transitions id, r.target ∈ t.states

theorem Table.closed_compile (d : Diagram) : (compile d).table.Closed := fun _ _ hr =>
  mem_states_compile.mpr (state?_target hr)

theorem Table.Closed.move {t : Table} (ht : t.Closed) {c c' : Configuration} (h : t.move c = .ok c') :
    c'.state ∈ t.states := by
  obtain ⟨-, r, hfind, -, htarget⟩ := Table.move_eq_ok_iff.mp h
  rw [htarget]
  exact ht c.state.id r (List.mem_of_find?_eq_some hfind)

namespace Machine

variable {t : Table} {m : Machine} {limit : Option Nat}

/-- The machine has the table and is in one of its states. -/
structure Placed (t : Table) (m : Machine) : Prop where
  table : m.table = t
  state : m.state ∈ t.states

theorem lasting_placed (ht : t.Closed) : Lasting t (Placed t) where
  set _ _ hs _ := ⟨rfl, hs⟩
  step m hm := by
    rcases m.step_cases with ⟨halt, -, hs⟩ | ⟨-, halt, -, hs⟩ | ⟨-, c, hmove, hs⟩
    · rw [hs]
      exact hm
    · rw [hs]
      exact ⟨hm.table, hm.state⟩
    · rw [hs]
      exact ⟨hm.table, ht.move (hm.table ▸ hmove)⟩
  edit m c hm hc := by
    refine ⟨hm.table, ?_⟩
    rcases hc with hsame | hother
    · exact (congrArg (· ∈ t.states) hsame).mpr hm.state
    · exact hm.table ▸ hother
  reset m c hm hc := ⟨hm.table, hm.table ▸ hc⟩
  setTraceLimit _ _ hm := ⟨hm.table, hm.state⟩

/-! ### Halts -/

theorem lasting_settled (t : Table) : Lasting t Settled where
  set _ _ _ _ := settled_of_idle rfl
  step _ hm := hm.step
  edit _ _ _ _ := settled_of_idle rfl
  reset _ _ _ _ := settled_of_idle rfl
  setTraceLimit _ _ hm := hm

/-! ### Snapshots -/

theorem kept_prefix (limit : Option Nat) (history : List Snapshot) : kept limit history <+: history := by
  cases limit with
  | none => exact List.prefix_refl _
  | some n => exact List.take_prefix n history

theorem length_kept_le {n : Nat} (history : List Snapshot) : (kept (some n) history).length ≤ n :=
  List.length_take_le n history

theorem mem_head?_of_isPrefix {α : Type} {l l' : List α} (h : l <+: l') {a : α} (ha : a ∈ l.head?) : a ∈ l'.head? := by
  obtain ⟨rest, rfl⟩ := h
  cases l with
  | nil => cases ha
  | cons b l => exact ha

/-- The history holds snapshots of consecutive steps up to the latest, within the limit. -/
structure Recorded (m : Machine) : Prop where
  limit : ∀ n, m.traceLimit = some n → m.history.length ≤ n
  consecutive : m.history.IsChain fun a b => a.step = b.step + 1
  latest : ∀ s ∈ m.history.head?, s.step = m.stepCount
  running : m.status = .running → ∀ s ∈ m.history.head?, s = m.snapshot
  inside : ∀ s ∈ m.history, s.head < s.tape.length

theorem head_snapshot_lt (m : Machine) : m.snapshot.head < m.snapshot.tape.length := by
  rw [snapshot, Tape.text, String.length_ofList]
  exact m.tape.head_lt

namespace Recorded

/-- Without a record, the limit is all that is kept. -/
theorem of_nil (h : m.history = []) : m.Recorded := by
  refine ⟨?_, ?_, ?_, ?_, ?_⟩ <;> simp [h]

/-- A change of the configuration or the status keeps the record, unless it claims that the machine has just moved. -/
theorem changed (h : m.Recorded) (c : Configuration) {status : Status} (hstatus : status ≠ .running) :
    Recorded { m with configuration := c, status := status } :=
  ⟨h.limit, h.consecutive, h.latest, fun hrunning => absurd hrunning hstatus, h.inside⟩

theorem setTraceLimit (h : m.Recorded) (limit : Option Nat) : (m.setTraceLimit limit).Recorded := by
  have hkept : (m.setTraceLimit limit).history <+: m.history := kept_prefix limit m.history
  refine ⟨?_, h.consecutive.prefix hkept, ?_, ?_, ?_⟩
  · intro n hn
    obtain rfl : limit = some n := hn
    exact length_kept_le _
  · intro s hs
    exact h.latest s (mem_head?_of_isPrefix hkept hs)
  · intro hrunning s hs
    exact h.running hrunning s (mem_head?_of_isPrefix hkept hs)
  · intro s hs
    exact h.inside s (hkept.subset hs)

/-- A move puts its snapshot before the record, of which the limit then keeps what it allows. -/
theorem moveTo (h : m.Recorded) (c : Configuration) : (m.moveTo c).Recorded := by
  have hkept : (m.moveTo c).history <+: (m.moveTo c).snapshot :: m.history := kept_prefix _ _
  have hfirst : ∀ s ∈ (m.moveTo c).history.head?, s = (m.moveTo c).snapshot := fun s hs =>
    (Option.some.inj (mem_head?_of_isPrefix hkept hs)).symm
  refine ⟨?_, ?_, ?_, fun _ => hfirst, ?_⟩
  · intro n hn
    have hlimit : m.traceLimit = some n := hn
    unfold Machine.moveTo
    rw [hlimit]
    exact length_kept_le _
  · refine List.IsChain.prefix (List.isChain_cons.mpr ⟨fun s hs => ?_, h.consecutive⟩) hkept
    rw [h.latest s hs]
    rfl
  · intro s hs
    rw [hfirst s hs]
    rfl
  · intro s hs
    rcases List.mem_cons.mp (hkept.subset hs) with rfl | hs
    · exact head_snapshot_lt _
    · exact h.inside s hs

theorem step (h : m.Recorded) : m.step.2.Recorded := by
  rcases m.step_cases with ⟨halt, -, hs⟩ | ⟨-, halt, -, hs⟩ | ⟨-, c, -, hs⟩
  · rw [hs]
    exact h
  · rw [hs]
    exact h.changed m.configuration nofun
  · rw [hs]
    exact h.moveTo c

end Recorded

theorem lasting_recorded (t : Table) : Lasting t Recorded where
  set _ _ _ _ := .of_nil rfl
  step _ hm := hm.step
  edit _ c hm _ := hm.changed c nofun
  reset _ _ _ _ := .of_nil rfl
  setTraceLimit _ limit hm := hm.setTraceLimit limit

/-! ### All of it -/

/-- What is true of every machine that can arise. -/
structure Coherent (m : Machine) : Prop where
  cells : 0 < m.tape.cells.length
  head : m.tape.head < m.tape.cells.length
  state : m.table.state? m.state.id = some m.state
  limit : ∀ n, m.traceLimit = some n → m.trace.length ≤ n
  consecutive : m.trace.IsChain fun a b => b.step = a.step + 1
  latest : ∀ s ∈ m.trace.getLast?, s.step = m.stepCount
  inside : ∀ s ∈ m.trace, s.head < s.tape.length
  running : m.status = .running → ∀ s ∈ m.trace.getLast?, s = m.snapshot
  accepted : m.status = .halted .accepted → m.state.isFinal
  failed : ∀ e, m.status = .halted (.failed e) → ¬m.state.isFinal ∧ m.idle.step.1 = .halted (.failed e)

theorem Settled.accepted (h : m.Settled) (hhalted : m.status = .halted .accepted) : m.state.isFinal := by
  cases Table.move_eq_error_iff.mp (h _ hhalted) with
  | accepted hfinal => exact hfinal

theorem Settled.failed {e : RunError} (h : m.Settled) (hhalted : m.status = .halted (.failed e)) :
    ¬m.state.isFinal ∧ m.idle.step.1 = .halted (.failed e) := by
  have hmove := h _ hhalted
  refine ⟨?_, (settled_of_idle (m := m.idle) rfl).step_eq_halted_iff.mpr hmove⟩
  cases Table.move_eq_error_iff.mp hmove <;> assumption

theorem Reachable.coherent {d : Diagram} (h : Reachable (compile d).table m) : m.Coherent := by
  have hplaced := h.of_lasting (lasting_placed (Table.closed_compile d))
  have hsettled := h.of_lasting (lasting_settled _)
  have hrecorded := h.of_lasting (lasting_recorded _)
  exact {
    cells := Nat.zero_lt_of_lt m.tape.head_lt
    head := m.tape.head_lt
    state := by
      rw [hplaced.table]
      exact Table.state?_of_mem (ascending_compile d) hplaced.state
    limit := fun n hn => by
      rw [trace, List.length_reverse]
      exact hrecorded.limit n hn
    consecutive := List.isChain_reverse.mpr hrecorded.consecutive
    latest := fun s hs => hrecorded.latest s (List.getLast?_reverse ▸ hs)
    inside := fun s hs => hrecorded.inside s (List.mem_reverse.mp hs)
    running := fun hrunning s hs => hrecorded.running hrunning s (List.getLast?_reverse ▸ hs)
    accepted := hsettled.accepted
    failed := fun _ => hsettled.failed }

/-- The walker with three of its cells edited while it runs, cut to the last snapshot of two, and halted at a `b`. -/
theorem Reachable.coherent_walker : Coherent
    ((inState (compile walker).table ⟨[], 'a', ['a', '_', 'b']⟩ { id := "1", isStart := true }).after
      [.run 2, .setTraceLimit (some 1), .setHead 0, .setSymbol 0 'b', .setState "3", .step]) :=
  Reachable.coherent (d := walker)
    (.performed _ (.performed _ (.performed _ (.performed _ (.performed _ (.performed _ (.fresh (.new rfl))))))))

end Machine
end Tapeworks
