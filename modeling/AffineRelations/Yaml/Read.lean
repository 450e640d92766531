import AffineRelations.Yaml.Basic
import AffineRelations.Yaml.TokenStream

/-!
# Reading YAML

The first document of a text is read from its tokens. Only as much of the text
is looked at as its tokens and those read ahead need, in portions of 512 bytes,
and only there a character that is not allowed makes the text malformed.
-/
namespace AffineRelations.Yaml

/-- The outcome of reading a text. -/
inductive Input where
  | malformed
  | empty
  | document (value : Yaml)
  deriving Repr

/-- Tokens, with the nodes that have an anchor and the meanings of handles. -/
structure Reader where
  tokens : TokenStream
  /-- Nodes by their anchors, latest last. -/
  anchors : List (String × Yaml)
  handles : List (String × String)
  deriving Repr

namespace Reader

def peek? (r : Reader) : Option (Token × Reader) := do
  let (t, tokens) ← r.tokens.peek?
  return (t, { r with tokens := tokens })

def skip (r : Reader) : Reader := { r with tokens := r.tokens.skip }

/-- The node of an anchor. -/
def find? (r : Reader) (name : String) : Option Yaml := r.anchors.reverse.lookup name

/-- Gives a name to a node that has been read. -/
def addAnchor (r : Reader) (name : String) (y : Yaml) : Reader :=
  if name = "" then r else { r with anchors := r.anchors ++ [(name, y)] }

/-- A node that contains itself. -/
def unfinished : Yaml := .scalar .mistagged ""

/-- Puts a collection in the place that was kept for it. -/
def finish (r : Reader) (slot : Nat) (name : String) (y : Yaml) : Reader :=
  if name = "" then r else { r with anchors := r.anchors.set slot (name, y) }

/-- A tag in full. -/
def fullTag? (r : Reader) (handle rest : String) : Option String :=
  if handle = "" then some rest
  else (r.handles.lookup handle).bind fun m => if m ++ rest = "" then none else some (m ++ rest)

end Reader

/-- The anchor and the tag in front of a node. -/
structure Properties where
  anchor : String
  tag : String
  deriving DecidableEq, Repr

def tagToken? (r : Reader) : Option (String × Reader) := do
  let (t, r) ← r.peek?
  match t with
  | .tag handle rest => do
    let tag ← r.fullTag? handle rest
    return (tag, r.skip)
  | _ => return ("", r)

def anchorToken? (r : Reader) : Option (String × Reader) := do
  let (t, r) ← r.peek?
  match t with
  | .anchor name => return (name, r.skip)
  | _ => return ("", r)

/-- Reads an anchor and a tag in either order; both may be missing. -/
def properties? (r : Reader) : Option (Properties × Reader) := do
  let (t, r) ← r.peek?
  match t with
  | .anchor name => do
    let (tag, r) ← tagToken? r.skip
    return (⟨name, tag⟩, r)
  | .tag .. => do
    let (tag, r) ← tagToken? r
    let (name, r) ← anchorToken? r
    return (⟨name, tag⟩, r)
  | _ => return (⟨"", ""⟩, r)

/-- Whether a value is missing between the marks of a block mapping. -/
def endsBlockPair : Token → Bool
  | .key | .value | .blockEnd => true
  | _ => false

mutual

/-- A node. In a block it may be a block collection; as part of a mapping it may
be a sequence in the column of the mapping. -/
def node? (block indentless : Bool) : (fuel : Nat) → Reader → Option (Yaml × Reader)
  | 0, _ => none
  | fuel + 1, r => do
    let (t, r) ← r.peek?
    match t with
    | .reference name => do
      let y ← r.find? name
      return (.reference name y, r.skip)
    | _ => do
      let (p, r) ← properties? r
      let (t, r) ← r.peek?
      let slot := r.anchors.length
      let inside := r.addAnchor p.anchor Reader.unfinished
      match t with
      | .blockEntry => do
        require indentless
        let (items, r) ← indentlessItems? fuel inside []
        return (.seq items, r.finish slot p.anchor (.seq items))
      | .scalar plain text =>
        let y := Yaml.ofScalar p.tag plain text
        return (y, (r.addAnchor p.anchor y).skip)
      | .flowSeqStart => do
        let (items, r) ← flowItems? fuel true inside.skip []
        return (.seq items, r.finish slot p.anchor (.seq items))
      | .flowMapStart => do
        let (pairs, r) ← flowPairs? fuel true inside.skip []
        return (.map pairs, r.finish slot p.anchor (.map pairs))
      | .blockSeqStart => do
        require block
        let (items, r) ← blockItems? fuel inside.skip []
        return (.seq items, r.finish slot p.anchor (.seq items))
      | .blockMapStart => do
        require block
        let (pairs, r) ← blockPairs? fuel inside.skip []
        return (.map pairs, r.finish slot p.anchor (.map pairs))
      | _ => do
        require (p.anchor != "" || p.tag != "")
        let y := Yaml.ofScalar p.tag true ""
        return (y, r.addAnchor p.anchor y)

/-- The items of a sequence in the column of its mapping. -/
def indentlessItems? : (fuel : Nat) → Reader → List Yaml → Option (List Yaml × Reader)
  | 0, _, _ => none
  | fuel + 1, r, items => do
    let (t, r) ← r.peek?
    if t != .blockEntry then return (items, r)
    let (t, r) ← r.skip.peek?
    if t == .blockEntry || endsBlockPair t then indentlessItems? fuel r (items ++ [null])
    else
      let (y, r) ← node? true false fuel r
      indentlessItems? fuel r (items ++ [y])

/-- The items of a block sequence. -/
def blockItems? : (fuel : Nat) → Reader → List Yaml → Option (List Yaml × Reader)
  | 0, _, _ => none
  | fuel + 1, r, items => do
    let (t, r) ← r.peek?
    if t == .blockEnd then return (items, r.skip)
    require (t == .blockEntry)
    let (t, r) ← r.skip.peek?
    if t == .blockEntry || t == .blockEnd then blockItems? fuel r (items ++ [null])
    else
      let (y, r) ← node? true false fuel r
      blockItems? fuel r (items ++ [y])

/-- The pairs of a block mapping. -/
def blockPairs? : (fuel : Nat) → Reader → List (Yaml × Yaml) → Option (List (Yaml × Yaml) × Reader)
  | 0, _, _ => none
  | fuel + 1, r, pairs => do
    let (t, r) ← r.peek?
    if t == .blockEnd then return (pairs, r.skip)
    require (t == .key)
    let (t, r) ← r.skip.peek?
    let (k, r) ← if endsBlockPair t then pure (null, r) else node? true true fuel r
    let (t, r) ← r.peek?
    if t != .value then blockPairs? fuel r (pairs ++ [(k, null)])
    else
      let (t, r) ← r.skip.peek?
      let (v, r) ← if endsBlockPair t then pure (null, r) else node? true true fuel r
      blockPairs? fuel r (pairs ++ [(k, v)])

/-- The items of a flow sequence. A pair in it is a mapping of its own. -/
def flowItems? : (fuel : Nat) → (first : Bool) → Reader → List Yaml → Option (List Yaml × Reader)
  | 0, _, _, _ => none
  | fuel + 1, first, r, items => do
    let (t, r) ← r.peek?
    if t == .flowSeqEnd then return (items, r.skip)
    require (first || t == .flowEntry)
    let (t, r) ← if first then pure (t, r) else r.skip.peek?
    if t == .flowSeqEnd then return (items, r.skip)
    if t == .key then
      let (t, r) ← r.skip.peek?
      let (k, r) ← if t == .value || t == .flowEntry || t == .flowSeqEnd then pure (null, r.skip)
        else node? false false fuel r
      let (t, r) ← r.peek?
      let (v, r) ← if t == .value then do
          let (t, r) ← r.skip.peek?
          if t == .flowEntry || t == .flowSeqEnd then pure (null, r) else node? false false fuel r
        else pure (null, r)
      flowItems? fuel false r (items ++ [.map [(k, v)]])
    else
      let (y, r) ← node? false false fuel r
      flowItems? fuel false r (items ++ [y])

/-- The pairs of a flow mapping. A key without a colon has the value null. -/
def flowPairs? : (fuel : Nat) → (first : Bool) → Reader → List (Yaml × Yaml) →
    Option (List (Yaml × Yaml) × Reader)
  | 0, _, _, _ => none
  | fuel + 1, first, r, pairs => do
    let (t, r) ← r.peek?
    if t == .flowMapEnd then return (pairs, r.skip)
    require (first || t == .flowEntry)
    let (t, r) ← if first then pure (t, r) else r.skip.peek?
    if t == .flowMapEnd then return (pairs, r.skip)
    if t == .key then
      let (t, r) ← r.skip.peek?
      let (k, r) ← if t == .value || t == .flowEntry || t == .flowMapEnd then pure (null, r)
        else node? false false fuel r
      let (t, r) ← r.peek?
      let (v, r) ← if t == .value then do
          let (t, r) ← r.skip.peek?
          if t == .flowEntry || t == .flowMapEnd then pure (null, r) else node? false false fuel r
        else pure (null, r)
      flowPairs? fuel false r (pairs ++ [(k, v)])
    else
      let (k, r) ← node? false false fuel r
      flowPairs? fuel false r (pairs ++ [(k, null)])

end

/-- The handles that every document has. -/
def commonHandles : List (String × String) := [("!", "!"), ("!!", standardTag "")]

/-- Reads directives: one version, which must be 1.1, and handles, each once. -/
def directives? : (fuel : Nat) → Reader → (versioned : Bool) → Option Reader
  | 0, _, _ => none
  | fuel + 1, r, versioned => do
    let (t, r) ← r.peek?
    match t with
    | .directive (.version major minor) => do
      require (!versioned && major == 1 && minor == 1)
      directives? fuel r.skip true
    | .directive (.handle name meaning) => do
      require (r.handles.lookup name).isNone
      directives? fuel { r.skip with handles := r.handles ++ [(name, meaning)] } versioned
    | _ => return { r with handles := r.handles ++ commonHandles }

/-- Whether a document without content ends here. -/
def endsDocument : Token → Bool
  | .directive _ | .documentStart | .documentEnd | .streamEnd => true
  | _ => false

/-- The first document, or none if there is none, and the tokens behind it. -/
def document? (tokens : TokenStream) : Option (Option Yaml × TokenStream) := do
  let fuel := 8 * tokens.size
  let (_, r) ← (Reader.mk tokens [] []).peek?
  let (t, r) ← r.skip.peek?
  match t with
  | .streamEnd => return (none, r.tokens)
  | .directive _ | .documentStart => do
    let r ← directives? fuel r false
    let (t, r) ← r.peek?
    require (t == .documentStart)
    let (t, r) ← r.skip.peek?
    let (y, r) ← if endsDocument t then pure (null, r) else node? true false fuel r
    let (_, r) ← r.peek?
    return (some y, r.tokens)
  | _ => do
    let (y, r) ← node? true false fuel { r with handles := commonHandles }
    let (_, r) ← r.peek?
    return (some y, r.tokens)

/-- The number of bytes in a portion of the text. -/
def portionSize : Nat := 512

/-- The number of characters that have been looked at once `needed` of them were:
whole portions, of which `used` bytes are full. -/
def lookedAt (needed : Nat) : (count used : Nat) → List Char → Nat
  | count, _, [] => count
  | count, used, c :: cs =>
    if used + c.utf8Size ≤ portionSize then lookedAt needed (count + 1) (used + c.utf8Size) cs
    else if needed ≤ count then count
    else lookedAt needed (count + 1) c.utf8Size cs

def readInput (s : String) : Input :=
  let hasMark := s.toList.head?.any isByteOrderMark
  let cs := if hasMark then s.toList.drop 1 else s.toList
  match document? (.ofChars cs) with
  | none => .malformed
  | some (y, rest) =>
    let needed := rest.cursor.index + TokenStream.lookahead
    let count := lookedAt needed 0 (if hasMark then 3 else 0) cs
    if (cs.take count).all isAllowed then match y with
      | some y => .document y
      | none => .empty
    else .malformed

end AffineRelations.Yaml
