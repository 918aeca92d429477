import DistFs.Network
import DistFs.Proofs.Wire.Codec
import Mathlib.Data.List.Perm.Subperm

namespace DistFs

namespace Network

variable {net net' : Network} {kind : Handle → Target} {endpoint : String} {name other : String}
  {i k : Nat}

/-- The server itself is bound at an endpoint, or a handle to an endpoint that leads to it. The
number counts the endpoints on the way. -/
inductive Leads (net : Network) (kind : Handle → Target) : Nat → String → String → Prop
  | arrive {endpoint name : String} {binding : Binding} (bound : net.find? endpoint = some binding)
      (target : binding.target = kind (.direct name)) : Leads net kind 1 endpoint name
  | forward {endpoint next name : String} {binding : Binding} {k : Nat}
      (bound : net.find? endpoint = some binding) (target : binding.target = kind (.remote next))
      (rest : Leads net kind k next name) : Leads net kind (k + 1) endpoint name

def Serves (net : Network) (kind : Handle → Target) (endpoint name : String) : Prop :=
  ∃ k, net.Leads kind k endpoint name

def Offers (net : Network) (kind : Handle → Target) (endpoint : String) : Prop :=
  ∃ binding h, net.find? endpoint = some binding ∧ binding.target = kind h

theorem Leads.isBound (leads : net.Leads kind k endpoint name) : net.isBound endpoint = true := by
  cases leads with
  | arrive bound | forward bound => rw [Network.isBound, bound, Option.isSome_some]

theorem find?_congr (same : net'.bindings = net.bindings) (endpoint : String) :
    net'.find? endpoint = net.find? endpoint := by
  rw [find?, same, find?]

theorem Leads.congr (same : net'.bindings = net.bindings) (leads : net.Leads kind k endpoint name) :
    net'.Leads kind k endpoint name := by
  induction leads with
  | arrive bound target => exact .arrive ((find?_congr same _).trans bound) target
  | forward bound target _ ih => exact .forward ((find?_congr same _).trans bound) target ih

theorem Leads.unique (injective : kind.Injective) (leads : net.Leads kind k endpoint name)
    (leads' : net.Leads kind i endpoint other) : i = k := by
  induction leads generalizing i with
  | arrive bound target =>
    cases leads' with
    | arrive => rfl
    | forward bound' target' =>
      cases bound.symm.trans bound'
      cases injective (target.symm.trans target')
  | forward bound target _ ih =>
    cases leads' with
    | arrive bound' target' =>
      cases bound.symm.trans bound'
      cases injective (target.symm.trans target')
    | forward bound' target' rest =>
      cases bound.symm.trans bound'
      cases injective (target.symm.trans target')
      rw [ih rest]

theorem Leads.route (injective : kind.Injective) (leads : net.Leads kind k endpoint name) :
    ∃ route : List String, route.length = k ∧ route.Nodup ∧
      ∀ e ∈ route, ∃ i ≤ k, net.Leads kind i e name := by
  induction leads with
  | @arrive endpoint name binding bound target =>
    refine ⟨[endpoint], rfl, by simp, fun e member => ⟨1, Nat.le_refl _, ?_⟩⟩
    rw [List.mem_singleton.mp member]
    exact .arrive bound target
  | @forward endpoint next name binding k bound target rest ih =>
    obtain ⟨route, length, nodup, along⟩ := ih
    have leads := Leads.forward bound target rest
    -- An endpoint that came again would be at two distances from the server.
    have new : endpoint ∉ route := by
      intro again
      obtain ⟨i, near, leads'⟩ := along endpoint again
      have := leads.unique injective leads'
      omega
    refine ⟨endpoint :: route, by rw [List.length_cons, length], List.nodup_cons.mpr ⟨new, nodup⟩,
      fun e member => ?_⟩
    cases List.mem_cons.mp member with
    | inl first => exact ⟨k + 1, Nat.le_refl _, first ▸ leads⟩
    | inr later =>
      obtain ⟨i, near, leads'⟩ := along e later
      exact ⟨i, Nat.le_succ_of_le near, leads'⟩

theorem Leads.length_le (injective : kind.Injective) (leads : net.Leads kind k endpoint name) :
    k ≤ net.bindings.length := by
  obtain ⟨route, rfl, nodup, along⟩ := leads.route injective
  have listed : route ⊆ net.bindings.map (·.endpoint) := by
    intro e member
    obtain ⟨i, -, leads⟩ := along e member
    obtain ⟨binding, bound⟩ := Option.isSome_iff_exists.mp leads.isBound
    have same : binding.endpoint = e := by simpa using List.find?_some bound
    exact List.mem_map.mpr ⟨binding, List.mem_of_find?_eq_some bound, same⟩
  simpa using (nodup.subperm listed).length_le

/-! ## What is exchanged -/

variable {σ : Type} {binding : Binding} {request : Request} {s : σ}
  {serve : Target → Request → σ → Except Error Reply × σ}

theorem exchange_bound (bound : net.find? endpoint = some binding) :
    net.exchange endpoint request serve s = serve binding.target request s := by
  simp [exchange, bound, Envelope.decode_encode, Response.decode_encode]

theorem exchange_unbound (unbound : net.find? endpoint = none) :
    net.exchange endpoint request serve s = (.error (notBound endpoint), s) := by
  simp [exchange, unbound]

end Network

end DistFs
