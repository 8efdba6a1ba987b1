import OmniCompute.OmniNode
import OmniCompute.RunLogs
import OmniCompute.PassManager

/-! What the node makes of its messages, and a worker that joins the network: its node hears
of nobody but itself. -/
namespace NodeChannel

open RustValues OmniDialect PassManager TaskRouter Protocol EventRuns RunLogs NamedValues
open OmniNode

variable {F S : Type}

def accepted (s : NodeState F S) : Event F S → List (NetworkMessage F S)
  | .offload message => if (offloadTask s message).1 then [message] else []
  | _ => []

def handled (s : NodeState F S) : Event F S → List (NetworkMessage F S)
  | .swarm => s.channel.take 1
  | _ => []

def written (s : NodeState F S) : Event F S → Option (String × WorkerNode S)
  | .register peerId profile => some (peerId, profile)
  | .offload _ => none
  | .swarm =>
    match s.channel with
    | .heartbeat profile _ :: _ => some (profile.peerId, profile)
    | _ => none

/-- In every run the channel hands on what it accepts, once and in order; the table holds the
last profile under every id, and the workers listed are these profiles, one for each id. -/
structure Faithful (events : List (Event F S)) : Prop where
  inOrder : ∀ i, gathered node handled events i ++ (node.stateAt events i).channel =
    gathered node accepted events i
  bounded : ∀ i, (node.stateAt events i).channel.length ≤ 1024
  refused : ∀ i message, events[i]? = some (.offload message) →
    (node.outputAt events i = some false ↔ (node.stateAt events i).channel.length = 1024)
  drained : ∀ n, (node.after events).channel.length ≤ n →
    gathered node handled (events ++ List.replicate n .swarm) (events.length + n) =
      gathered node accepted events events.length
  table : ∀ i peerId, (node.stateAt events i).routingTable.lookup peerId =
    lastWritten node written events i peerId
  listed : ∀ i order, order.Perm (node.stateAt events i).routingTable.entries →
    ∃ peerIds : List String, peerIds.Nodup ∧
      (∀ peerId, peerId ∈ peerIds ↔ (lastWritten node written events i peerId).isSome) ∧
      (getActiveWorkers order).map some = peerIds.map (lastWritten node written events i)

section Steps

theorem channel_step (s : NodeState F S) (e : Event F S) :
    handled s e ++ (nodeStep s e).2.channel = s.channel ++ accepted s e := by
  cases e with
  | register peerId profile => simp [handled, accepted, nodeStep, registerPeer]
  | offload message =>
    simp only [handled, accepted, nodeStep, offloadTask]
    split <;> simp
  | swarm =>
    rcases s with ⟨table, _ | ⟨message, rest⟩⟩
    · rfl
    · cases message <;> simp [handled, accepted, nodeStep, swarmEventLoop]

theorem channel_turn (s : NodeState F S) :
    (nodeStep s .swarm).2.channel = s.channel.tail := by
  rcases s with ⟨table, _ | ⟨message, rest⟩⟩
  · rfl
  · cases message <;> rfl

theorem channel_bounded {s : NodeState F S} (e : Event F S) (h : s.channel.length ≤ 1024) :
    (nodeStep s e).2.channel.length ≤ 1024 := by
  cases e with
  | register peerId profile => exact h
  | offload message =>
    simp only [nodeStep, offloadTask]
    split
    · next hroom =>
      rw [List.length_append]
      exact hroom
    · exact h
  | swarm =>
    rw [channel_turn, List.length_tail]
    omega

theorem table_step (s : NodeState F S) (e : Event F S) (peerId : String) :
    (nodeStep s e).2.routingTable.lookup peerId =
      (written s e).elim (s.routingTable.lookup peerId) fun w =>
        if peerId = w.1 then some w.2 else s.routingTable.lookup peerId := by
  have hinsert : ∀ key (profile : WorkerNode S), (s.routingTable.insert key profile).lookup peerId =
      if peerId = key then some profile else s.routingTable.lookup peerId := by
    intro key profile
    by_cases hk : peerId = key
    · subst hk
      simp
    · simp [AList.lookup_insert_ne hk, hk]
  cases e with
  | register key profile => exact hinsert key profile
  | offload message =>
    simp only [nodeStep, offloadTask, written]
    split <;> rfl
  | swarm =>
    rcases s with ⟨table, _ | ⟨message, rest⟩⟩
    · rfl
    · cases message
      case heartbeat profile uptime => exact hinsert profile.peerId profile
      all_goals rfl

theorem table_at (events : List (Event F S)) (i : ℕ) (peerId : String) :
    (node.stateAt events i).routingTable.lookup peerId = lastWritten node written events i peerId :=
  table_lastWritten node (fun s peerId => s.routingTable.lookup peerId) (fun _ => rfl) table_step
    events i peerId

end Steps

theorem node_faithful (events : List (Event F S)) : Faithful events where
  inOrder := queue_conserved (M := node) rfl channel_step events
  bounded i := stable_between node events (fun s => s.channel.length ≤ 1024) (Nat.zero_le i)
    (Nat.zero_le _) fun _ e _ _ _ h => channel_bounded e h
  refused i message he := by
    have hbound := stable_between node events (fun s => s.channel.length ≤ 1024) (Nat.zero_le i)
      (Nat.zero_le _) fun _ e _ _ _ h => channel_bounded e h
    rw [outputAt_eq _ he]
    change some (offloadTask _ message).1 = some false ↔ _
    have hcapacity : channelCapacity = 1024 := rfl
    simp only [offloadTask]
    split <;> simp <;> omega
  drained n := queue_drained (M := node) rfl channel_step channel_turn (fun _ => rfl) events
  table := table_at events
  listed i order hp := by
    refine ⟨order.map Sigma.fst, visited_nodup hp, fun peerId => ?_, ?_⟩
    · rw [mem_visited hp, table_at]
    · rw [getActiveWorkers_eq, visited_values hp]
      exact List.map_congr_left fun peerId _ => table_at events i peerId

section Worker

/-- The profile under which `handle_worker_join` announces the machine. -/
def workerProfile [NatCast S] (backend : TargetBackend) (peerId : String) (vramLimitGb : UInt64) :
    WorkerNode S where
  peerId := peerId
  fp16Tflops :=
    match backend with
    | .amdRocm .. => (80 : ℕ)
    | .appleMetal .. => (35 : ℕ)
    | _ => (12 : ℕ)
  rttMs := (0 : ℕ)
  vramCapacityBytes := vramLimitGb * 1024 * 1024 * 1024
  currentLoad := (0 : ℕ)

/-- The message it sends every ten seconds; the uptime in it never moves. -/
def heartbeatMsg (profile : WorkerNode S) : NetworkMessage F S := .heartbeat profile 0

inductive Turn where
  | beat
  | swarm
  deriving DecidableEq

/-- A run of the worker: sends of the loop, retried while the channel is full, and turns of the
event loop. -/
def joined (profile : WorkerNode S) (turns : List Turn) : List (Event F S) :=
  turns.map fun
    | .beat => .offload (heartbeatMsg profile)
    | .swarm => .swarm

/-- The node lists at most the worker itself, and schedules everything onto it. -/
structure KnowsItself [ScoreArith S] (profile : WorkerNode S) (events : List (Event F S)) :
    Prop where
  sole : ∀ i order, order.Perm (node.stateAt events i).routingTable.entries →
    getActiveWorkers order = [] ∨ getActiveWorkers order = [profile]
  listed : ∀ i order, order.Perm (node.stateAt events i).routingTable.entries →
    (getActiveWorkers order = [profile] ↔ gathered node handled events i ≠ [])
  targets : ∀ i order, order.Perm (node.stateAt events i).routingTable.entries →
    ∀ (ops : List (OmniOp F)) dispatches,
    scheduleGlobalOps ops (getActiveWorkers order) = .ok dispatches →
    dispatches.map TaskDispatch.op = ops ∧ ∀ d ∈ dispatches, d.targetPeerId = profile.peerId

variable {profile : WorkerNode S} {turns : List Turn}

structure OwnOnly (profile : WorkerNode S) (seen : List (NetworkMessage F S))
    (s : NodeState F S) : Prop where
  channel : ∀ m ∈ s.channel, m = heartbeatMsg profile
  table : s.routingTable.entries = if seen = [] then [] else [⟨profile.peerId, profile⟩]

theorem ownOnly_beat {seen : List (NetworkMessage F S)} {s : NodeState F S}
    (h : OwnOnly profile seen s) :
    OwnOnly profile seen (nodeStep s (.offload (heartbeatMsg profile))).2 := by
  simp only [nodeStep, offloadTask]
  split
  · refine ⟨fun m hm => ?_, h.table⟩
    rcases List.mem_append.1 hm with hm | hm
    · exact h.channel m hm
    · exact List.mem_singleton.1 hm
  · exact h

theorem ownOnly_swarm {seen : List (NetworkMessage F S)} {s : NodeState F S}
    (h : OwnOnly profile seen s) :
    OwnOnly profile (seen ++ handled s .swarm) (nodeStep s .swarm).2 := by
  rcases s with ⟨table, _ | ⟨message, rest⟩⟩
  · rw [handled, List.take_nil, List.append_nil]
    exact h
  · obtain rfl : message = heartbeatMsg profile := h.channel message List.mem_cons_self
    refine ⟨fun m hm => h.channel m (List.mem_cons_of_mem _ hm), ?_⟩
    have hnew : (table.insert profile.peerId profile).entries = [⟨profile.peerId, profile⟩] := by
      have htable : table.entries = if seen = [] then [] else [⟨profile.peerId, profile⟩] := h.table
      rw [AList.entries_insert, htable]
      split <;> simp
    rw [if_neg (by simp [handled])]
    exact hnew

theorem ownOnly_at (i : ℕ) : OwnOnly profile
    (gathered node handled (joined profile turns : List (Event F S)) i)
    (node.stateAt (joined profile turns) i) := by
  induction i with
  | zero => exact ⟨fun m hm => absurd hm List.not_mem_nil, rfl⟩
  | succ i ih =>
    cases he : (joined profile turns : List (Event F S))[i]? with
    | none => rwa [gathered_end he, stateAt_end _ he]
    | some e =>
      rw [gathered_succ he, stateAt_succ _ he]
      obtain ⟨turn, -, rfl⟩ := List.mem_map.1 (List.mem_of_getElem? he)
      generalize gathered node handled (joined profile turns : List (Event F S)) i = seen at ih ⊢
      generalize node.stateAt (joined profile turns : List (Event F S)) i = s at ih ⊢
      cases turn with
      | beat =>
        rw [show handled s (.offload (heartbeatMsg profile)) = [] from rfl, List.append_nil]
        exact ownOnly_beat ih
      | swarm => exact ownOnly_swarm ih

theorem workers_at (i : ℕ) {order : List (Sigma fun _ : String => WorkerNode S)}
    (hp : order.Perm
      (node.stateAt (joined profile turns : List (Event F S)) i).routingTable.entries) :
    getActiveWorkers order =
      if gathered node handled (joined profile turns : List (Event F S)) i = [] then []
      else [profile] := by
  rw [(ownOnly_at i).table] at hp
  rw [getActiveWorkers_eq]
  split at hp
  · rw [hp.eq_nil, if_pos ‹_›]
    rfl
  · rw [List.perm_singleton.1 hp, if_neg ‹_›]
    rfl

theorem knowsItself [ScoreArith S] (profile : WorkerNode S) (turns : List Turn) :
    KnowsItself profile (joined profile turns : List (Event F S)) := by
  constructor
  · intro i order hp
    rw [workers_at i hp]
    split <;> simp
  · intro i order hp
    rw [workers_at i hp]
    split <;> simp [*]
  · intro i order hp ops dispatches hs
    rw [workers_at i hp] at hs
    split at hs
    · cases hs
    · obtain ⟨listed, hl, hops, hspec⟩ := @schedule_spec F S _ ops _ (List.cons_ne_nil profile [])
      rw [hl, Except.ok.injEq] at hs
      subst hs
      refine ⟨hops, fun d hd => ?_⟩
      obtain ⟨-, w, hw, ht⟩ := hspec d hd
      rwa [List.mem_singleton.1 hw] at ht

end Worker

/-- However the loops take turns, a worker that has joined knows of no other peer; and its
capacity is what was asked for unless that overflows. -/
theorem joined_knows_itself [ScoreArith S] (backend : TargetBackend) (peerId : String)
    (vramLimitGb : UInt64) (turns : List Turn) :
    KnowsItself (workerProfile backend peerId vramLimitGb)
      (joined (workerProfile backend peerId vramLimitGb) turns : List (Event F S)) ∧
    ((workerProfile backend peerId vramLimitGb : WorkerNode S).vramCapacityBytes.toNat =
      vramLimitGb.toNat * 2 ^ 30 ↔ vramLimitGb.toNat < 2 ^ 34) := by
  refine ⟨knowsItself _ turns, ?_⟩
  simp only [workerProfile, UInt64.toNat_mul]
  have hlt := vramLimitGb.toNat_lt
  simp
  omega

end NodeChannel
