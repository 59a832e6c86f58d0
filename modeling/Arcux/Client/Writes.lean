import Arcux.Pd.Region
import Arcux.Rpc.Kv

namespace Arcux

open Codec List Pd Rpc

namespace Client

def maxRoutingAttempts : Nat := 5

inductive Code where
  | ok | cancelled | unknown | invalidArgument | deadlineExceeded | notFound | alreadyExists | permissionDenied
  | resourceExhausted | failedPrecondition | aborted | outOfRange | unimplemented | internal | unavailable | dataLoss
  | unauthenticated
  deriving DecidableEq

/-- How a call ended that got no response; `source` tells whether an error of the transport is behind it. -/
structure Status where
  code : Code
  message : String
  source : Bool
  deriving DecidableEq

inductive ClientError where
  | rpc (status : Status)
  | key (message : String)
  | noLeader
  | unreachable
  | unknownTable (name : String)
  | undetermined (detail : String)
  deriving DecidableEq

def keyError : KeyError → ClientError
  | .undetermined detail => .undetermined detail
  | .conflict detail => .key s!"conflict: {detail}"
  | .locked primary _ ttl _ => .key s!"locked by primary {primary} (ttl {ttl})"
  | .invalid s => .key s!"invalid: {s}"
  | .retryable s => .key s!"retryable: {s}"
  | .notLeader _ => .key "not leader"
  | .regionStale newEpoch => .key s!"region stale (new epoch {newEpoch})"
  | .unspecified => .key "unspecified key error"

def isReroute : KeyError → Bool
  | .regionStale _ | .notLeader _ => true
  | _ => false

def tryNextNode (s : Status) : Bool :=
  if s.source || s.code = .deadlineExceeded then true
  else s.message.startsWith "not the region leader" || s.message.startsWith "region not hosted" ||
    s.message.startsWith "region stale"

inductive WriteRequest where
  | put (key value : Bytes) (context : Option Context) (table : String)
  | delete (key : Bytes) (context : Option Context) (table : String)
  deriving DecidableEq

structure WriteResponse where
  commitTs : UInt64
  error : Option KeyError
  deriving DecidableEq

/-- What becomes of a request: what the client hears of it, and whether the contacted node applies the write, be it
after the client has stopped waiting. -/
structure Reply where
  answer : Except Status WriteResponse
  applied : Bool

structure Attempt where
  endpoint : String
  request : WriteRequest
  reply : Reply

/-- All that a client depends on: what is wrong with an endpoint's URI, which tables the n-th listing gives, and what
becomes of a write, given the attempts that the same call made before. -/
structure Net where
  badUri : String → Option String
  listTables : Nat → String → Except Status (List (TableId × String))
  write : List Attempt → String → WriteRequest → Reply

structure ClusterRouting where
  endpoints : List String
  leader : Fin endpoints.length

namespace ClusterRouting

def current (c : ClusterRouting) (net : Net) : Except ClientError String :=
  match net.badUri (c.endpoints.get c.leader) with
  | some e => .error (.key s!"invalid endpoint: {e}")
  | none => .ok (c.endpoints.get c.leader)

def rotate (c : ClusterRouting) : ClusterRouting :=
  { c with leader := ⟨(c.leader + 1) % c.endpoints.length, Nat.mod_lt _ (Nat.zero_lt_of_lt c.leader.isLt)⟩ }

end ClusterRouting

end Client

structure Client where
  cluster : Client.ClusterRouting
  tables : List (String × Pd.TableId)

namespace Client

structure Outcome where
  client : Client
  attempts : List Attempt
  result : Except ClientError UInt64

def connectCluster : List String → Except ClientError Client
  | [] => .error (.key "connect_cluster needs at least one endpoint")
  | first :: rest =>
    .ok ⟨⟨first :: rest, ⟨0, Nat.succ_pos _⟩⟩, [("", defaultTableId), (defaultTableName, defaultTableId)]⟩

def invalidate (client : Client) : Client := { client with cluster := client.cluster.rotate }

def exhausted (reachedANode : Bool) : ClientError := if reachedANode then .noLeader else .unreachable

def onAnyNode {α : Type} (net : Net) (call : Nat → String → Except Status α) (n : Nat) :
    Nat → Client → Client × Except ClientError α
  | 0, client => (client, .error .unreachable)
  | left + 1, client =>
    match client.cluster.current net with
    | .error e => (client, .error e)
    | .ok endpoint =>
      match call n endpoint with
      | .ok v => (client, .ok v)
      | .error s =>
        if tryNextNode s then onAnyNode net call (n + 1) left client.invalidate else (client, .error (.rpc s))

def tableId (net : Net) (client : Client) (table : String) : Client × Except ClientError TableId :=
  match client.tables.lookup table with
  | some id => (client, .ok id)
  | none =>
    match onAnyNode net net.listTables 0 (max client.cluster.endpoints.length 1) client with
    | (client, .error e) => (client, .error e)
    | (client, .ok listed) =>
      let tables := listed.foldl (fun cache t => (t.2, t.1) :: cache) client.tables
      ({ client with tables }, match tables.lookup table with | some id => .ok id | none => .error (.unknownTable table))

/-- The attempts of a write, of which `left` remain. A cluster's requests carry no routing context, and the stored key
that the table's id leads to is used for routing by PD only. -/
def attempt (net : Net) (request : Option Context → WriteRequest) :
    Nat → Client → Bool → List Attempt → Outcome
  | 0, client, reachedANode, made => ⟨client, made, .error (exhausted reachedANode)⟩
  | left + 1, client, reachedANode, made =>
    match client.cluster.current net with
    | .error e => ⟨client, made, .error e⟩
    | .ok endpoint =>
      let reply := net.write made endpoint (request none)
      let made := made ++ [⟨endpoint, request none, reply⟩]
      match reply.answer with
      | .error status =>
        if tryNextNode status then attempt net request left client.invalidate reachedANode made
        else ⟨client, made, .error (.rpc status)⟩
      | .ok response =>
        match response.error with
        | none => ⟨client, made, .ok response.commitTs⟩
        | some e =>
          if isReroute e then attempt net request left client.invalidate true made
          else ⟨client, made, .error (keyError e)⟩

def write (net : Net) (client : Client) (table : String) (request : Option Context → WriteRequest) : Outcome :=
  match client.tableId net table with
  | (client, .error e) => ⟨client, [], .error e⟩
  | (client, .ok _) => attempt net request maxRoutingAttempts client false []

def put (net : Net) (client : Client) (table : String) (key value : Bytes) : Outcome :=
  client.write net table (.put key value · table)

def delete (net : Net) (client : Client) (table : String) (key : Bytes) : Outcome :=
  client.write net table (.delete key · table)

namespace Attempt

def redirected (a : Attempt) : Bool :=
  match a.reply.answer with
  | .ok response => response.error.any isReroute
  | .error _ => false

def skipped (a : Attempt) : Bool :=
  match a.reply.answer with
  | .ok _ => false
  | .error status => tryNextNode status

end Attempt

namespace Outcome

/-- A node that answers that it is not the leader, or that the region is stale, does not apply the write. -/
def Honest (o : Outcome) : Prop := ∀ a ∈ o.attempts, a.redirected → a.reply.applied = false

def Settled (o : Outcome) : Prop := ∀ a ∈ o.attempts, a.skipped → a.reply.applied = false

instance (o : Outcome) : Decidable o.Honest := inferInstanceAs (Decidable (∀ a ∈ _, _))

instance (o : Outcome) : Decidable o.Settled := inferInstanceAs (Decidable (∀ a ∈ _, _))

def applied (o : Outcome) : Nat := o.attempts.countP (·.reply.applied)

end Outcome

variable {net : Net} {request : Option Context → WriteRequest} {client : Client}

theorem attempt_retried (left : Nat) (reached : Bool) (made : List Attempt)
    (before : ∀ a ∈ made, a.redirected ∨ a.skipped) :
    ∀ a ∈ (attempt net request left client reached made).attempts.dropLast, a.redirected ∨ a.skipped := by
  induction left generalizing client reached made with
  | zero => exact fun a member => before a (dropLast_subset _ member)
  | succ left ih =>
    have last (x : Attempt) : ∀ a ∈ (made ++ [x]).dropLast, a.redirected ∨ a.skipped := by
      rw [dropLast_concat]
      exact before
    have more {x : Attempt} (retried : x.redirected ∨ x.skipped) :
        ∀ a ∈ made ++ [x], a.redirected ∨ a.skipped := by
      intro a member
      rcases mem_append.mp member with earlier | new
      · exact before a earlier
      · rw [mem_singleton.mp new]
        exact retried
    rw [attempt]
    cases client.cluster.current net with
    | error e => exact fun a member => before a (dropLast_subset _ member)
    | ok endpoint =>
      simp only
      cases answer : (net.write made endpoint (request none)).answer with
      | error status =>
        simp only
        split
        next next => exact ih _ _ (more (.inr (by simpa only [Attempt.skipped, answer] using next)))
        next => exact last _
      | ok response =>
        simp only
        cases error : response.error with
        | none => exact last _
        | some e =>
          simp only
          split
          next reroute =>
            exact ih _ _ (more (.inl (by simpa only [Attempt.redirected, answer, error, Option.any_some] using reroute)))
          next => exact last _

theorem write_retried (net : Net) (client : Client) (table : String) (request : Option Context → WriteRequest) :
    ∀ a ∈ (client.write net table request).attempts.dropLast, a.redirected ∨ a.skipped := by
  rw [write]
  split
  · exact fun a none => absurd none not_mem_nil
  · exact attempt_retried _ _ _ fun a none => absurd none not_mem_nil

theorem Outcome.applied_le_one {o : Outcome} (retried : ∀ a ∈ o.attempts.dropLast, a.redirected ∨ a.skipped)
    (honest : o.Honest) (settled : o.Settled) : o.applied ≤ 1 := by
  have earlier : o.attempts.dropLast.countP (·.reply.applied) = 0 := by
    rw [countP_eq_zero]
    intro a member
    have made := dropLast_subset _ member
    rcases retried a member with redirected | skipped
    · rw [honest a made redirected]
      exact Bool.false_ne_true
    · rw [settled a made skipped]
      exact Bool.false_ne_true
  rw [Outcome.applied]
  rcases eq_nil_or_concat o.attempts with none | ⟨before, last, split⟩
  · rw [none]
    exact Nat.zero_le 1
  · rw [concat_eq_append] at split
    rw [split, dropLast_concat] at earlier
    rw [split, countP_append, earlier, Nat.zero_add]
    exact countP_le_length

theorem writes_applied_at_most_once (net : Net) (client : Client) (table : String) (key value : Bytes) (o : Outcome)
    (run : o = client.put net table key value ∨ o = client.delete net table key) (honest : o.Honest)
    (settled : o.Settled) : o.applied ≤ 1 := by
  have retried : ∀ a ∈ o.attempts.dropLast, a.redirected ∨ a.skipped := by
    rcases run with rfl | rfl
    · exact write_retried net client table _
    · exact write_retried net client table _
  exact Outcome.applied_le_one retried honest settled

def pair : Client := ⟨⟨["http://a", "http://b"], 0⟩, [("", defaultTableId), (defaultTableName, defaultTableId)]⟩

def scripted (replies : List Reply) : Net where
  badUri _ := none
  listTables _ _ := .ok []
  write made _ _ := replies.getD made.length ⟨.error ⟨.unavailable, "", true⟩, false⟩

def failover : Net :=
  scripted [⟨.ok ⟨0, some (.notLeader [])⟩, false⟩, ⟨.error ⟨.unavailable, "connection refused", true⟩, false⟩,
    ⟨.ok ⟨7, none⟩, true⟩]

theorem writes_applied_at_most_once_failover :
    (pair.put failover "" [1] [2]).applied = 1 ∧ (pair.put failover "" [1] [2]).attempts.length = 3 ∧
      (pair.put failover "" [1] [2]).applied ≤ 1 :=
  ⟨by decide, by decide, writes_applied_at_most_once failover pair "" [1] [2] _ (.inl rfl) (by decide) (by decide)⟩

def lateCommit : Net := scripted [⟨.error ⟨.deadlineExceeded, "Timeout expired", true⟩, true⟩, ⟨.ok ⟨8, none⟩, true⟩]

/-- A write whose deadline passes is sent to the next node, and both nodes apply it. -/
theorem late_write_applied_twice :
    (pair.put lateCommit "" [1] [2]).Honest ∧ (pair.put lateCommit "" [1] [2]).applied = 2 ∧
      (pair.put lateCommit "" [1] [2]).result = .ok 8 ∧ (pair.delete lateCommit "" [1]).Honest ∧
      (pair.delete lateCommit "" [1]).applied = 2 := by
  decide

structure Found (net : Net) (request : Option Context → WriteRequest) (endpoints : List String) (leader : String)
    (ts : UInt64) : Prop where
  uris : ∀ e ∈ endpoints, net.badUri e = none
  leads : ∀ made, (net.write made leader (request none)).answer = .ok ⟨ts, none⟩
  others : ∀ made, ∀ e ∈ endpoints, e ≠ leader → let a : Attempt := ⟨e, request none, net.write made e (request none)⟩
    a.redirected ∨ a.skipped

variable {table leader : String} {ts : UInt64} (found : Found net request client.cluster.endpoints leader ts)

include found

theorem attempt_finds_leader (left steps : Nat) (near : steps < left) (reached : Bool) (made : List Attempt)
    (there : client.cluster.endpoints[(client.cluster.leader + steps) % client.cluster.endpoints.length]? = some leader) :
    (attempt net request left client reached made).result = .ok ts := by
  induction left generalizing client steps reached made with
  | zero => exact absurd near (Nat.not_lt_zero _)
  | succ left ih =>
    obtain ⟨⟨endpoints, current⟩, tables⟩ := client
    have here : ClusterRouting.current ⟨endpoints, current⟩ net = .ok (endpoints.get current) := by
      rw [ClusterRouting.current, found.uris _ (endpoints.get_mem current)]
    rw [attempt, here]
    by_cases first : endpoints.get current = leader
    · simp only [first, found.leads]
    have passed := found.others made _ (endpoints.get_mem current) first
    cases steps with
    | zero =>
      rw [Nat.add_zero, Nat.mod_eq_of_lt current.isLt, getElem?_eq_getElem current.isLt] at there
      exact absurd (Option.some.inj there) first
    | succ steps =>
      have ahead : endpoints[((current + 1) % endpoints.length + steps) % endpoints.length]? = some leader := by
        rw [Nat.mod_add_mod, Nat.add_assoc, Nat.add_comm 1]
        exact there
      have next (reached : Bool) (made : List Attempt) :=
        @ih (invalidate ⟨⟨endpoints, current⟩, tables⟩) found steps (Nat.lt_of_succ_lt_succ near) reached made ahead
      simp only [Attempt.redirected, Attempt.skipped] at passed ⊢
      cases answer : (net.write made (endpoints.get current) (request none)).answer with
      | error status =>
        simp only [answer, Bool.false_eq_true, false_or] at passed
        simp only [passed, if_true, next]
      | ok response =>
        simp only [answer, Bool.false_eq_true, or_false] at passed
        obtain ⟨e, error, reroute⟩ := (Option.any_eq_true ..).mp passed
        simp only [error, reroute, if_true, next]

/-- A write finds the leader among at most five nodes, if the others redirect it or cannot be reached. -/
theorem write_finds_leader (known : (client.tables.lookup table).isSome)
    (few : client.cluster.endpoints.length ≤ maxRoutingAttempts) (member : leader ∈ client.cluster.endpoints) :
    (client.write net table request).result = .ok ts := by
  obtain ⟨id, listed⟩ := Option.isSome_iff_exists.mp known
  obtain ⟨p, short, rfl⟩ := getElem_of_mem member
  rw [write, tableId, listed]
  refine attempt_finds_leader found _ ((p + client.cluster.endpoints.length - client.cluster.leader) %
    client.cluster.endpoints.length) ((Nat.mod_lt _ (Nat.zero_lt_of_lt short)).trans_le few) _ _ ?_
  rw [Nat.add_mod_mod, Nat.add_sub_of_le (by omega), Nat.add_mod_right, Nat.mod_eq_of_lt short]
  exact getElem?_eq_getElem short

def second : Net where
  badUri _ := none
  listTables _ _ := .ok []
  write _ e _ := if e = "http://b" then ⟨.ok ⟨7, none⟩, true⟩ else ⟨.ok ⟨0, some (.notLeader [])⟩, false⟩

omit found in
theorem write_finds_leader_second : (pair.put second "" [1] [2]).result = .ok 7 := by
  have found : Found second (.put [1] [2] · "") pair.cluster.endpoints "http://b" 7 :=
    ⟨fun _ _ => rfl, fun _ => rfl, fun _ e _ other => .inl (by simp [second, other, Attempt.redirected, isReroute])⟩
  exact write_finds_leader found (by decide) (by decide) (by decide)

end Client

end Arcux
