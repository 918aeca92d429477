import DistFs.Proofs.Service.Joining

namespace DistFs

namespace Network

variable {net : Network} {endpoint : String}

def alreadyBound (endpoint : String) : Error :=
  .communication s!"endpoint {endpoint} is already bound"

theorem bind_of_bound (bound : net.isBound endpoint = true) (target : Target) :
    net.bind endpoint target = .error (alreadyBound endpoint) := if_pos bound

theorem alreadyBound_inj {a b : String} (same : alreadyBound a = alreadyBound b) : a = b := by
  have texts := congrArg String.toList (Error.communication.inj same)
  simp only [toString, String.toList_append, List.append_cancel_right_eq,
    List.append_cancel_left_eq] at texts
  exact String.toList_inj.mp texts

end Network

/-- What may keep a server from joining once its endpoints are bound: its directory, a server that
is out of order, or another one by its name. -/
inductive JoinFault : Error → Prop
  | host (text : String) : JoinFault (.io text)
  | unreachable (endpoint : String) : JoinFault (Servers.unreachable endpoint)
  | known (container : String) : JoinFault (.alreadyRegistered container)

theorem JoinFault.ne_alreadyBound {e : Error} (fault : JoinFault e) (endpoint : String) :
    e ≠ Network.alreadyBound endpoint := by
  cases fault with
  | host text | known container => nofun
  | unreachable other =>
    intro same
    have texts := congrArg (·.toList.reverse.head?) (Error.communication.inj same)
    simp [toString] at texts

namespace Servers

variable {s : Servers} {name : String} {p : Path} {e : Error}

theorem dataOf_fault (failed : s.dataOf name = .error e) : JoinFault e := by
  unfold dataOf at failed
  split at failed
  · split at failed
    · cases failed
    · cases failed
      exact .unreachable _
  · cases failed
    exact .unreachable _

theorem survey_fault {store : MountedStore} {host : HostFiles}
    (failed : store.survey host = .error e) : JoinFault e := by
  unfold MountedStore.survey at failed
  split at failed
  · cases failed
    exact .host _
  · cases failed

theorem listFiles_fault (failed : s.listFiles name = .error e) : JoinFault e := by
  simp only [listFiles, Bind.bind, Except.bind] at failed
  cases reached : s.dataOf name with
  | error e' =>
    rw [reached] at failed
    cases failed
    exact dataOf_fault reached
  | ok server =>
    rw [reached] at failed
    simp only at failed
    split at failed
    · cases failed
    next store _ =>
      cases survey : store.survey s.host with
      | error e' =>
        rw [MountedStore.listFiles, survey] at failed
        cases failed
        exact survey_fault survey
      | ok found =>
        rw [MountedStore.listFiles, survey] at failed
        cases failed

theorem delete_fault {store : MountedStore} {host : HostFiles}
    (failed : (store.delete host p).1 = .error e) : JoinFault e := by
  unfold MountedStore.delete at failed
  split at failed
  · cases failed
  · split at failed
    · cases failed
    · split at failed
      · cases failed
      · cases failed
        exact .host _
    · split at failed
      · cases failed
      · cases failed
        exact .host _

theorem deleteOn_fault (failed : (s.deleteOn name p).1 = .error e) : JoinFault e := by
  unfold deleteOn command at failed
  split at failed
  · cases failed
    exact .unreachable _
  · split at failed
    · cases failed
      exact .unreachable _
    · cases failed
    · simp only at failed
      split at failed
      · cases failed
      · exact delete_fault failed

theorem network_deleteOn (s : Servers) (name : String) (p : Path) :
    (s.deleteOn name p).2.network = s.network := by
  unfold deleteOn command
  split
  · rfl
  · split
    · rfl
    · rfl
    · simp only
      split <;> rfl

theorem dropAll_fault {store : MountedStore} {dirs : List Path} {host : HostFiles}
    (failed : (MountedStore.prune.dropAll store dirs host).1 = .error e) : JoinFault e := by
  induction dirs generalizing host with
  | nil => cases failed
  | cons dir dirs ih =>
    unfold MountedStore.prune.dropAll at failed
    split at failed
    · exact ih failed
    · cases failed
      exact .host _

theorem prune_fault {store : MountedStore} {host : HostFiles}
    (failed : (store.prune host).1 = .error e) : JoinFault e := by
  unfold MountedStore.prune at failed
  split at failed
  next survey =>
    cases failed
    exact survey_fault survey
  next => exact dropAll_fault failed

theorem pruneOn_fault (failed : (s.pruneOn name).1 = .error e) : JoinFault e := by
  unfold pruneOn at failed
  split at failed
  · cases failed
    exact .unreachable _
  · split at failed
    · cases failed
    · exact prune_fault failed

theorem network_pruneOn (s : Servers) (name : String) :
    (s.pruneOn name).2.network = s.network := by
  unfold pruneOn
  split
  · rfl
  · split <;> rfl

end Servers

namespace Cluster

open Network

variable {c : Cluster} {registration name : String} {e : Error} {binding : Binding}

theorem dropDuplicates_fault {paths : List Path} {s : Servers}
    (failed : (dropDuplicates name paths s).1 = .error e) : JoinFault e := by
  induction paths generalizing s with
  | nil => cases failed
  | cons p paths ih =>
    unfold dropDuplicates at failed
    split at failed
    · exact ih failed
    next e' s' deleted =>
      cases failed
      exact Servers.deleteOn_fault (congrArg Prod.fst deleted)

theorem network_dropDuplicates (name : String) (paths : List Path) (s : Servers) :
    (dropDuplicates name paths s).2.network = s.network := by
  induction paths generalizing s with
  | nil => rfl
  | cons p paths ih =>
    have same := s.network_deleteOn name p
    unfold dropDuplicates
    split
    next deleted =>
      rw [deleted] at same
      exact (ih _).trans same
    next deleted =>
      rw [deleted] at same
      exact same

theorem recordFile_isOk (container : Container) (p : Path) (t : Tree) :
    ∃ offer v, recordFile container p t = (.ok offer, v) := by
  unfold recordFile
  split
  · exact ⟨_, _, rfl⟩
  · split
    · exact ⟨_, _, rfl⟩
    · cases registered : t.register p container with
      | mk result v =>
        cases result with
        | ok n => exact ⟨_, _, rfl⟩
        | error e =>
          rcases Tree.register_error registered with ⟨q, rfl⟩ | ⟨q, rfl⟩ <;> exact ⟨_, _, rfl⟩

theorem recordFiles_isOk (container : Container) (files : List Path) (t : Tree) :
    ∃ offers v, recordFiles container files t = (.ok offers, v) := by
  induction files generalizing t with
  | nil => exact ⟨_, _, rfl⟩
  | cons p files ih =>
    obtain ⟨offer, u, recorded⟩ := recordFile_isOk container p t
    obtain ⟨offers, v, later⟩ := ih u
    exact ⟨(p, offer) :: offers, v, by simp only [recordFiles, recorded, later]; rfl⟩

theorem register_cases (c : Cluster) (container : Container) (files : List Path) :
    (c.register container files).2.servers = c.servers ∧
      ∀ e, (c.register container files).1 = .error e → JoinFault e := by
  unfold register
  simp only
  split
  · exact ⟨rfl, fun e failed => by cases failed; exact .known _⟩
  · obtain ⟨offers, v, recorded⟩ := recordFiles_isOk container files c.tree
    simp only [tree, catalog] at recorded ⊢
    rw [recorded]
    exact ⟨rfl, nofun⟩

theorem join_cases (bound : c.servers.network.find? registration = some binding)
    (target : binding.target = .registration) (name : String) :
    (c.join name registration).2.servers.network.bindings = c.servers.network.bindings ∧
      ∀ e, (c.join name registration).1 = .error e → JoinFault e := by
  unfold join
  split
  next e listed =>
    refine ⟨rfl, fun e failed => ?_⟩
    cases failed
    exact Servers.listFiles_fault listed
  next files listed =>
    have asked := registerAt_bound bound target name files
    have registered := register_cases (c.setNetwork c.servers.network.dial) (.bound name) files
    rw [← asked] at registered
    obtain ⟨servers, fault⟩ := registered
    simp only
    unfold Container.bound at servers fault
    split
    next e c' answer =>
      rw [answer] at servers fault
      exact ⟨congrArg (·.network.bindings) servers, fun e failed => fault e failed⟩
    next duplicates c' answer =>
      rw [answer] at servers
      have kept : c'.servers.network.bindings = c.servers.network.bindings :=
        congrArg (·.network.bindings) servers
      have dropped := network_dropDuplicates name duplicates c'.servers
      split
      next e s' answer =>
        rw [answer] at dropped
        refine ⟨(congrArg bindings dropped).trans kept, fun e failed => ?_⟩
        cases failed
        exact dropDuplicates_fault (congrArg Prod.fst answer)
      next s' answer =>
        rw [answer] at dropped
        have pruned := s'.network_pruneOn name
        refine ⟨(congrArg bindings (pruned.trans dropped)).trans kept, fun e failed => ?_⟩
        simp only at failed
        cases answer : (s'.pruneOn name).1 with
        | ok _ =>
          rw [answer] at failed
          cases failed
        | error e' =>
          rw [answer] at failed
          cases failed
          exact Servers.pruneOn_fault answer

end Cluster

end DistFs
