import DistFs.Container
import DistFs.Wire.Codec
/-!
# The network

Endpoints that serve calls. A call is sent as an envelope and answered by a response, both in their
written form, so that nothing passes but what can be written.
-/

namespace DistFs

inductive Target where
  | storage (h : Handle)
  | command (h : Handle)
  | registration
deriving DecidableEq

/-- A bound endpoint; the serial number tells it from others bound under the same name before. -/
structure Binding where
  endpoint : String
  serial : Nat
  target : Target
deriving DecidableEq

structure Network where
  bindings : List Binding := []
  serial : Nat := 0
  nextId : UInt64 := 0

namespace Network

def find? (net : Network) (endpoint : String) : Option Binding :=
  net.bindings.find? (·.endpoint = endpoint)

def isBound (net : Network) (endpoint : String) : Bool := (net.find? endpoint).isSome

def bind (net : Network) (endpoint : String) (target : Target) : Except Error (Binding × Network) :=
  if net.isBound endpoint then .error (.communication s!"endpoint {endpoint} is already bound")
  else
    let binding := ⟨endpoint, net.serial, target⟩
    .ok (binding, { net with bindings := net.bindings ++ [binding], serial := net.serial + 1 })

def unbind (net : Network) (endpoint : String) : Network :=
  { net with bindings := net.bindings.filter (·.endpoint ≠ endpoint) }

def dial (net : Network) : Network := { net with nextId := net.nextId + 1 }

def notBound (endpoint : String) : Error := .communication s!"nothing bound at {endpoint}"

def dropped (endpoint : String) (request : Request) : Error :=
  .communication s!"{endpoint} dropped the {request.name} call"

def notServed (request : Request) : Error :=
  .communication s!"{request.name} is not served here"

def unexpected (request : Request) (reply : Reply) : Error :=
  .communication s!"unexpected reply to {request.name}: {reply.text}"

def malformed : Error := .communication "codec: malformed message"

def mismatched (response call : UInt64) : Error :=
  .communication s!"response id {response.toNat} does not match call {call.toNat}"

def exchange {σ : Type} (net : Network) (endpoint : String) (request : Request)
    (serve : Target → Request → σ → Except Error Reply × σ) (s : σ) : Except Error Reply × σ :=
  match net.find? endpoint with
  | none => (.error (notBound endpoint), s)
  | some binding =>
    match Envelope.decode (Envelope.encode ⟨net.nextId, request⟩) with
    | none => (.error (dropped endpoint request), s)
    | some envelope =>
      let (result, s) := serve binding.target envelope.request s
      match Response.decode (Response.encode ⟨envelope.id, result⟩) with
      | none => (.error malformed, s)
      | some response =>
        if response.id = net.nextId then (response.result, s)
        else (.error (mismatched response.id net.nextId), s)

end Network

namespace Request

def isData : Request → Bool
  | size _ | read .. | write .. => true
  | _ => false

def isCommand : Request → Bool
  | create _ | delete _ | copy .. => true
  | _ => false

def expect : Request → Reply → Except Error Reply
  | size _, .size n => .ok (.size n)
  | read .., .data d => .ok (.data d)
  | write .., .unit => .ok .unit
  | create _, .flag b | delete _, .flag b | copy .., .flag b => .ok (.flag b)
  | register .., .paths ps => .ok (.paths ps)
  | request, reply => .error (Network.unexpected request reply)

end Request

end DistFs
