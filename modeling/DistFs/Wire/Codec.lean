import DistFs.Lock
import DistFs.Text.Json
import DistFs.Wire.Message
/-!
# The written form of messages

Every message is one JSON document. A structure is an object, or an array of its fields; a choice
is the name of the case, or an object with that name as its only key. A request is an object that
names its operation in the field `op`, or an array that starts with it.
-/

namespace DistFs

namespace Json

def maxNesting : Nat := 127

def field (name : String) (v : Json) : Option String × Json := (some name, v)

def word (n : UInt64) : Json := nat n.toNat

def case (name : String) (content : Json) : Json := object [(some name, content)]

end Json

open Json

/-! ## Paths and modes -/

def Path.toJson (p : Path) : Json := .text p.text

def Path.ofJson (v : Json) : Option Path := do (Path.parse (← asText v)).toOption

def LockMode.toJson : LockMode → Json
  | shared => .text "Shared"
  | exclusive => .text "Exclusive"

def LockMode.ofJson (v : Json) : Option LockMode := do
  match ← choice v with
  | ("Shared", none) | ("Shared", some null) => some shared
  | ("Exclusive", none) | ("Exclusive", some null) => some exclusive
  | _ => none

/-! ## Errors -/

def Error.toJson (e : Error) : Json :=
  match e with
  | notFound p | notADirectory p | notAFile p | alreadyExists p | lockInterrupted p =>
    case e.kind p.toJson
  | communication s | alreadyRegistered s | io s | config s => case e.kind (.text s)
  | noStorage => .text e.kind
  | notLocked p mode => case e.kind (object [field "path" p.toJson, field "mode" (.text mode)])
  | invalidPath p reason =>
    case e.kind (object [field "path" (.text p), field "reason" (.text reason)])
  | outOfBounds p offset length size =>
    case e.kind (object [field "path" p.toJson, field "offset" (word offset),
      field "length" (word length), field "size" (word size)])

def Error.ofJson (v : Json) : Option Error := do
  match ← choice v with
  | ("NotFound", some c) => notFound <$> Path.ofJson c
  | ("NotADirectory", some c) => notADirectory <$> Path.ofJson c
  | ("NotAFile", some c) => notAFile <$> Path.ofJson c
  | ("AlreadyExists", some c) => alreadyExists <$> Path.ofJson c
  | ("Communication", some c) => communication <$> asText c
  | ("LockInterrupted", some c) => lockInterrupted <$> Path.ofJson c
  | ("NotLocked", some c) =>
    match ← record ["path", "mode"] c with
    | [p, mode] => return notLocked (← Path.ofJson p) (← asText mode)
    | _ => none
  | ("AlreadyRegistered", some c) => alreadyRegistered <$> asText c
  | ("NoStorage", none) | ("NoStorage", some null) => some noStorage
  | ("InvalidPath", some c) =>
    match ← record ["path", "reason"] c with
    | [p, reason] => return invalidPath (← asText p) (← asText reason)
    | _ => none
  | ("OutOfBounds", some c) =>
    match ← record ["path", "offset", "length", "size"] c with
    | [p, offset, length, size] =>
      return outOfBounds (← Path.ofJson p) (← asWord offset) (← asWord length) (← asWord size)
    | _ => none
  | ("Io", some c) => io <$> asText c
  | ("Config", some c) => config <$> asText c
  | _ => none

/-! ## Requests and replies -/

def Request.toJson (r : Request) : Json :=
  object <| field "op" (.text r.name) :: match r with
    | size p | create p | delete p => [field "path" p.toJson]
    | read p offset length =>
      [field "path" p.toJson, field "offset" (word offset), field "length" (word length)]
    | write p offset data =>
      [field "path" p.toJson, field "offset" (word offset),
        field "data" (array (data.map fun b => nat b.toNat))]
    | copy p source => [field "path" p.toJson, field "from" (.text source)]
    | register storage command files =>
      [field "storage" (.text storage), field "command" (.text command),
        field "files" (array (files.map Path.toJson))]

def Request.ofFields (op : String) (v : Json) : Option Request := do
  match op with
  | "size" => size <$> path1 v
  | "create" => create <$> path1 v
  | "delete" => delete <$> path1 v
  | "read" =>
    match ← record ["path", "offset", "length"] v with
    | [p, offset, length] => return read (← Path.ofJson p) (← asWord offset) (← asWord length)
    | _ => none
  | "write" =>
    match ← record ["path", "offset", "data"] v with
    | [p, offset, data] => return write (← Path.ofJson p) (← asWord offset) (← asList asByte data)
    | _ => none
  | "copy" =>
    match ← record ["path", "from"] v with
    | [p, source] => return copy (← Path.ofJson p) (← asText source)
    | _ => none
  | "register" =>
    match ← record ["storage", "command", "files"] v with
    | [storage, command, files] =>
      return register (← asText storage) (← asText command) (← asList Path.ofJson files)
    | _ => none
  | _ => none
where
  path1 (v : Json) : Option Path := do
    match ← record ["path"] v with
    | [p] => Path.ofJson p
    | _ => none

def Request.ofJson (depth : Nat) (v : Json) : Option Request := do
  guard (v.isSound && depth + v.nesting ≤ maxNesting)
  match v with
  | object fields =>
    match fields.filter (·.1 = some "op") with
    | [(_, op)] => Request.ofFields (← asText op) (object (fields.filter (·.1 ≠ some "op")))
    | _ => none
  | array (op :: rest) => Request.ofFields (← asText op) (array rest)
  | _ => none

def Reply.toJson : Reply → Json
  | size n => case "size" (word n)
  | data bytes => case "data" (array (bytes.map fun b => nat b.toNat))
  | unit => .text "unit"
  | flag b => case "flag" (bool b)
  | paths ps => case "paths" (array (ps.map Path.toJson))

def Reply.ofJson (v : Json) : Option Reply := do
  match ← choice v with
  | ("size", some c) => size <$> asWord c
  | ("data", some c) => data <$> asList asByte c
  | ("unit", none) | ("unit", some null) => some unit
  | ("flag", some c) => flag <$> asBool c
  | ("paths", some c) => paths <$> asList Path.ofJson c
  | _ => none

def Envelope.toJson (e : Envelope) : Json :=
  object [field "id" (word e.id), field "request" e.request.toJson]

def Envelope.ofJson (v : Json) : Option Envelope := do
  match ← record ["id", "request"] v with
  | [id, request] => return ⟨← asWord id, ← Request.ofJson 1 request⟩
  | _ => none

def Response.toJson (r : Response) : Json :=
  object [field "id" (word r.id), field "result" <|
    match r.result with
    | .ok reply => case "Ok" reply.toJson
    | .error e => case "Err" e.toJson]

def Response.ofJson (v : Json) : Option Response := do
  match ← record ["id", "result"] v with
  | [id, result] =>
    let id ← asWord id
    match ← choice result with
    | ("Ok", some c) => return ⟨id, .ok (← Reply.ofJson c)⟩
    | ("Err", some c) => return ⟨id, .error (← Error.ofJson c)⟩
    | _ => none
  | _ => none

/-! ## Payloads -/

def Envelope.encode (e : Envelope) : String := e.toJson.render

def Envelope.decode (payload : String) : Option Envelope := do ofJson (← Json.parse payload)

def Response.encode (r : Response) : String := r.toJson.render

def Response.decode (payload : String) : Option Response := do ofJson (← Json.parse payload)

end DistFs
