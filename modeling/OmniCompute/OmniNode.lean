import OmniCompute.EventRuns
import OmniCompute.NamedValues
import OmniCompute.Protocol

/-! The peer-to-peer node. Two writers fill its routing table: `register_peer` under the id
its caller names, and the swarm event loop under the id inside the announced profile. -/
namespace OmniNode

open RustValues OmniDialect TaskRouter Protocol EventRuns NamedValues

variable {F S : Type}

structure NodeState (F S : Type) where
  routingTable : HashMap String (WorkerNode S)
  channel : List (NetworkMessage F S)

def NodeState.new : NodeState F S := ⟨∅, []⟩

/-- `channel::<NetworkMessage>(1024)` -/
def channelCapacity : ℕ := 1024

/-- A sender waits while the channel is full; `false` is a send that has to be retried. -/
def offloadTask (s : NodeState F S) (message : NetworkMessage F S) : Bool × NodeState F S :=
  if s.channel.length < channelCapacity then
    (true, { s with channel := s.channel ++ [message] })
  else (false, s)

def registerPeer (s : NodeState F S) (peerId : String) (profile : WorkerNode S) :
    Bool × NodeState F S :=
  (true, { s with routingTable := s.routingTable.insert peerId profile })

/-- One turn of the event loop, which waits while the channel is empty. -/
def swarmEventLoop (s : NodeState F S) : Bool × NodeState F S :=
  match s.channel with
  | [] => (false, s)
  | .heartbeat profile _ :: rest =>
    (true, ⟨s.routingTable.insert profile.peerId profile, rest⟩)
  | .taskRequest _ _ :: rest => (true, { s with channel := rest })
  | _ :: rest => (true, { s with channel := rest })

/-- The workers in the order in which the table's shards are visited. -/
def getActiveWorkers (order : List (Sigma fun _ : String => WorkerNode S)) : List (WorkerNode S) :=
  order.foldl (fun workers r => workers ++ [r.2]) []

inductive Event (F S : Type) where
  | register (peerId : String) (profile : WorkerNode S)
  | offload (message : NetworkMessage F S)
  | swarm

def nodeStep (s : NodeState F S) : Event F S → Bool × NodeState F S
  | .register peerId profile => registerPeer s peerId profile
  | .offload message => offloadTask s message
  | .swarm => swarmEventLoop s

def node : Machine (NodeState F S) (Event F S) Bool := ⟨.new, nodeStep⟩

def announced (s : NodeState F S) : Event F S → Option (WorkerNode S)
  | .register _ profile => some profile
  | .offload _ => none
  | .swarm =>
    match s.channel with
    | .heartbeat profile _ :: _ => some profile
    | _ => none

def lastProfile (events : List (Event F S)) : ℕ → String → Option (WorkerNode S)
  | 0 => fun _ => none
  | i + 1 =>
    match events[i]?.bind (announced (node.stateAt events i)) with
    | some profile => Function.update (lastProfile events i) profile.peerId (some profile)
    | none => lastProfile events i

/-- In every state every peer is listed once, up to date, and can be reached. -/
structure Routable [ScoreArith S] (events : List (Event F S)) : Prop where
  keyed : ∀ i peerId profile,
    (node.stateAt events i).routingTable.lookup peerId = some profile → profile.peerId = peerId
  once : ∀ i order, order.Perm (node.stateAt events i).routingTable.entries →
    ((getActiveWorkers order).map WorkerNode.peerId).Nodup
  latest : ∀ i order, order.Perm (node.stateAt events i).routingTable.entries → ∀ profile,
    profile ∈ getActiveWorkers order ↔ lastProfile events i profile.peerId = some profile
  targets : ∀ i order, order.Perm (node.stateAt events i).routingTable.entries →
    ∀ (ops : List (OmniOp F)) dispatches,
    scheduleGlobalOps ops (getActiveWorkers order) = .ok dispatches →
    ∀ d ∈ dispatches, d.targetPeerId ∈ (node.stateAt events i).routingTable

def RegistersOwn (events : List (Event F S)) : Prop :=
  ∀ peerId profile, .register peerId profile ∈ events → profile.peerId = peerId

section Steps

variable {s : NodeState F S} {e : Event F S}

theorem step_table (s : NodeState F S) (e : Event F S)
    (own : ∀ peerId profile, e = .register peerId profile → profile.peerId = peerId) :
    (nodeStep s e).2.routingTable =
      match announced s e with
      | some profile => s.routingTable.insert profile.peerId profile
      | none => s.routingTable := by
  cases e with
  | register peerId profile =>
    cases own peerId profile rfl
    rfl
  | offload message =>
    simp only [nodeStep, offloadTask, announced]
    split <;> rfl
  | swarm =>
    rcases s with ⟨table, _ | ⟨message, rest⟩⟩
    · rfl
    · cases message <;> rfl

theorem getActiveWorkers_eq (order : List (Sigma fun _ : String => WorkerNode S)) :
    getActiveWorkers order = order.map Sigma.snd := by
  have h : ∀ (workers : List (WorkerNode S)),
      order.foldl (fun workers r => workers ++ [r.2]) workers = workers ++ order.map Sigma.snd := by
    induction order with
    | nil => simp
    | cons r order ih =>
      intro workers
      rw [List.foldl_cons, ih]
      simp
  exact h []

end Steps

section Runs

variable {events : List (Event F S)}

theorem own_at (own : RegistersOwn events) {i : ℕ} {e : Event F S} (he : events[i]? = some e) :
    ∀ peerId profile, e = .register peerId profile → profile.peerId = peerId := by
  rintro peerId profile rfl
  exact own peerId profile (List.mem_of_getElem? he)

theorem keyed_at (own : RegistersOwn events) (i : ℕ) :
    SelfKeyed WorkerNode.peerId (node.stateAt events i).routingTable := by
  induction i with
  | zero => exact selfKeyed_empty
  | succ i ih =>
    cases he : events[i]? with
    | none => rwa [stateAt_end _ he]
    | some e =>
      have ht := step_table (node.stateAt events i) e (own_at own he)
      rw [stateAt_succ _ he]
      change SelfKeyed _ (nodeStep (node.stateAt events i) e).2.routingTable
      rw [ht]
      split
      · exact selfKeyed_insert ih rfl
      · exact ih

theorem table_at (own : RegistersOwn events) (i : ℕ) (peerId : String) :
    (node.stateAt events i).routingTable.lookup peerId = lastProfile events i peerId := by
  induction i with
  | zero => rfl
  | succ i ih =>
    cases he : events[i]? with
    | none =>
      rw [stateAt_end _ he, ih]
      simp only [lastProfile, he, Option.bind_none]
    | some e =>
      have ht := step_table (node.stateAt events i) e (own_at own he)
      rw [stateAt_succ _ he]
      change (nodeStep (node.stateAt events i) e).2.routingTable.lookup peerId = _
      rw [ht]
      simp only [lastProfile, he, Option.bind_some]
      cases announced (node.stateAt events i) e with
      | none => exact ih
      | some profile =>
        by_cases hp : peerId = profile.peerId
        · subst hp
          simp
        · simp [AList.lookup_insert_ne hp, hp, ih]

theorem misfiled {i : ℕ} {peerId : String} {profile : WorkerNode S}
    (he : events[i]? = some (.register peerId profile)) :
    (node.stateAt events (i + 1)).routingTable.lookup peerId = some profile := by
  rw [stateAt_succ _ he]
  exact AList.lookup_insert _

end Runs

/-- The routing table is sound in every state of exactly those runs whose registrations
name the profile's own peer. -/
theorem routable_iff [ScoreArith S] (events : List (Event F S)) :
    Routable events ↔ RegistersOwn events := by
  constructor
  · intro h peerId profile hmem
    obtain ⟨i, he⟩ := List.mem_iff_getElem?.mp hmem
    exact h.keyed (i + 1) peerId profile (misfiled he)
  · intro own
    constructor
    · exact keyed_at own
    · intro i order hp
      rw [getActiveWorkers_eq, List.map_map]
      exact values_nodup (keyed_at own i) hp
    · intro i order hp profile
      rw [getActiveWorkers_eq, value_lookup (keyed_at own i) hp, table_at own]
    · intro i order hp ops dispatches hs d hd
      have hw : getActiveWorkers order ≠ [] := by
        intro hnil
        rw [hnil] at hs
        cases hs
      obtain ⟨listed, hl, _, hspec⟩ := @schedule_spec F S _ ops _ hw
      rw [hl, Except.ok.injEq] at hs
      subst hs
      obtain ⟨_, w, hmem, ht⟩ := hspec d hd
      rw [getActiveWorkers_eq, value_lookup (keyed_at own i) hp] at hmem
      rw [ht]
      exact AList.lookup_isSome.mp (hmem ▸ rfl)

def aliased : List (Event ℚ ℚ) := [.register "alias" soleWorker]

theorem aliased_unroutable : ¬ Routable aliased := by
  intro h
  have hl : (node.stateAt aliased 1).routingTable.lookup "alias" = some soleWorker := by
    decide +kernel
  have := h.keyed 1 "alias" soleWorker hl
  exact absurd this (by decide)

end OmniNode
