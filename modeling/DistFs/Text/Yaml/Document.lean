import DistFs.Text.Yaml.Token
/-!
# YAML documents

The nodes that the tokens of a text make up. A node with an anchor is kept under the anchor's number
too, so that aliases can refer to it, even from within the node itself.
-/

namespace DistFs.Yaml

inductive Node where
  | scalar (text : String) (style : Style) (tag : Option String)
  | sequence (items : List Node)
  | mapping (entries : List (Node × Node))
  | alias (anchor : Nat)

def Node.empty : Node := .scalar "" .plain none

structure Document where
  root : Node
  anchored : List (Nat × Node) := []

def Document.resolve (d : Document) : Node → Node
  | .alias i => (d.anchored.lookup i).getD (.alias i)
  | n => n

structure Reader where
  tokens : List Token
  handles : List (String × String)
  anchors : List (String × Nat) := []
  anchored : List (Nat × Node) := []

abbrev Reading := StateT Reader Option

namespace Reading

/-! ## Tokens -/

def sees (ts : List Token) : Reading Bool := do
  return (← get).tokens.head?.any fun t => t ∈ ts

def drop : Reading Unit := modify fun r => { r with tokens := r.tokens.tail }

def accept (t : Token) : Reading Bool := do
  let found ← sees [t]
  if found then drop
  return found

def expect (t : Token) : Reading Unit := do
  unless ← accept t do failure

/-! ## Anchors and tags -/

def properties : List Token → Option String × Option (String × String) × List Token
  | .anchor a :: .tag handle name :: rest => (some a, some (handle, name), rest)
  | .tag handle name :: .anchor a :: rest => (some a, some (handle, name), rest)
  | .anchor a :: rest => (some a, none, rest)
  | .tag handle name :: rest => (none, some (handle, name), rest)
  | rest => (none, none, rest)

def fullTag : Option (String × String) → Reading (Option String)
  | none => return none
  | some ("", name) => return some name
  | some (handle, name) => do
    match (← get).handles.lookup handle with
    | some leading => return some (leading ++ name)
    | none => failure

def enter : Option String → Reading (Option Nat)
  | none => return none
  | some name => do
    let number := (← get).anchors.length
    modify fun r => { r with anchors := (name, number) :: r.anchors }
    return some number

def keep (number : Option Nat) (n : Node) : Reading Unit :=
  match number with
  | some i => modify fun r => { r with anchored := (i, n) :: r.anchored }
  | none => return

/-! ## Nodes -/

mutual

/-- Reads a node. `block` allows a block collection, and `flush` a sequence whose dashes stand in
the column of the mapping around it. `fuel` bounds the number of tokens. -/
def node : Nat → Bool → Bool → Reading Node
  | 0, _, _ => failure
  | fuel + 1, block, flush => do
    match (← get).tokens with
    | .alias name :: rest =>
      match (← get).anchors.lookup name with
      | some i => do
        modify fun r => { r with tokens := rest }
        return .alias i
      | none => failure
    | tokens =>
      let (anchor, tag, rest) := properties tokens
      let fullName ← fullTag tag
      let number ← enter anchor
      modify fun r => { r with tokens := rest }
      let n ← content fuel block flush (anchor.isSome || tag.isSome) fullName
      keep number n
      return n

def content : Nat → Bool → Bool → Bool → Option String → Reading Node
  | 0, _, _, _, _ => failure
  | fuel + 1, block, flush, marked, tag => do
    match (← get).tokens, block, flush with
    | .blockEntry :: _, _, true => return .sequence (← flushItems fuel [])
    | .scalar text style :: _, _, _ => do
      drop
      return .scalar text style tag
    | .flowSequenceStart :: _, _, _ => do
      drop
      return .sequence (← flowItems fuel true [])
    | .flowMappingStart :: _, _, _ => do
      drop
      return .mapping (← flowPairs fuel true [])
    | .blockSequenceStart :: _, true, _ => do
      drop
      return .sequence (← blockItems fuel [])
    | .blockMappingStart :: _, true, _ => do
      drop
      return .mapping (← blockPairs fuel [])
    | _, _, _ => if marked then return .scalar "" .plain tag else failure

def blockNode : Nat → Bool → List Token → Reading Node
  | 0, _, _ => failure
  | fuel + 1, flush, ends => do
    if ← sees ends then return .empty else node fuel true flush

def blockItems : Nat → List Node → Reading (List Node)
  | 0, _ => failure
  | fuel + 1, acc => do
    if ← accept .blockEntry then
      blockItems fuel ((← blockNode fuel false [.blockEntry, .blockEnd]) :: acc)
    else
      expect .blockEnd
      return acc.reverse

def flushItems : Nat → List Node → Reading (List Node)
  | 0, _ => failure
  | fuel + 1, acc => do
    if ← accept .blockEntry then
      flushItems fuel ((← blockNode fuel false [.blockEntry, .key, .value, .blockEnd]) :: acc)
    else return acc.reverse

def blockPairs : Nat → List (Node × Node) → Reading (List (Node × Node))
  | 0, _ => failure
  | fuel + 1, acc => do
    if ← accept .key then
      let ends : List Token := [.key, .value, .blockEnd]
      let k ← blockNode fuel true ends
      let v ← if ← accept .value then blockNode fuel true ends else pure .empty
      blockPairs fuel ((k, v) :: acc)
    else
      expect .blockEnd
      return acc.reverse

def flowValue : Nat → Token → Reading Node
  | 0, _ => failure
  | fuel + 1, close => do
    if ← accept .value then
      if ← sees [.flowEntry, close] then return .empty else node fuel false false
    else return .empty

def flowItems : Nat → Bool → List Node → Reading (List Node)
  | 0, _, _ => failure
  | fuel + 1, first, acc => do
    if ← accept .flowSequenceEnd then return acc.reverse
    unless first do expect .flowEntry
    if ← accept .key then
      let k ← if ← sees [.value, .flowEntry, .flowSequenceEnd] then do
          drop
          pure .empty
        else node fuel false false
      let v ← flowValue fuel .flowSequenceEnd
      flowItems fuel false (.mapping [(k, v)] :: acc)
    else if ← accept .flowSequenceEnd then return acc.reverse
    else flowItems fuel false ((← node fuel false false) :: acc)

def flowPairs : Nat → Bool → List (Node × Node) → Reading (List (Node × Node))
  | 0, _, _ => failure
  | fuel + 1, first, acc => do
    if ← accept .flowMappingEnd then return acc.reverse
    unless first do expect .flowEntry
    if ← accept .key then
      let k ← if ← sees [.value, .flowEntry, .flowMappingEnd] then pure .empty
        else node fuel false false
      let v ← flowValue fuel .flowMappingEnd
      flowPairs fuel false ((k, v) :: acc)
    else if ← accept .flowMappingEnd then return acc.reverse
    else flowPairs fuel false ((← node fuel false false, .empty) :: acc)

end

/-! ## Directives -/

def directives (versioned : Bool) (handles : List (String × String)) :
    List Token → Option (List (String × String) × List Token)
  | .version major minor :: rest =>
    if !versioned && major = 1 && (minor = 1 || minor = 2) then directives true handles rest
    else none
  | .handle name leading :: rest =>
    if (handles.lookup name).isNone then directives versioned (handles ++ [(name, leading)]) rest
    else none
  | .documentStart :: rest => some (handles, rest)
  | _ => none

end Reading

def standardHandles : List (String × String) := [("!", "!"), ("!!", "tag:yaml.org,2002:")]

namespace Document

def read (handles : List (String × String)) (tokens : List Token) (present : Bool) :
    Option Document := do
  let reader : Reader := { tokens, handles := handles ++ standardHandles }
  let (root, r) ←
    if present then (Reading.node (3 * tokens.length + 10) true false).run reader
    else some (.empty, reader)
  if r.tokens.all (· = .documentEnd) then return { root, anchored := r.anchored } else none

def ofTokens? (tokens : List Token) : Option Document :=
  match tokens with
  | [] => some { root := .empty }
  | .version .. :: _ | .handle .. :: _ | .documentStart :: _ => do
    let (handles, rest) ← Reading.directives false [] tokens
    match rest with
    | [] | .documentEnd :: _ => read handles rest false
    | _ => read handles rest true
  | _ => read [] tokens true

def parse (text : String) : Option Document := do
  ofTokens? (← Token.scan (← readable? text))

end Document

end DistFs.Yaml
