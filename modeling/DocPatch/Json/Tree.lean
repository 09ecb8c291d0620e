import DocPatch.Json.Token

/-! The outline of a JSON text: its values with their places, before anything is made of them. A
text that breaks off has an outline too, in which the break stands where the missing part would. -/

namespace DocPatch

/-- How a list or a map ends: at its bracket, or broken off. -/
inductive Closing where
  | closed (stop : Nat)
  | broken (fault : Break)

/-- Where a bracket opens, and how many are open at it. -/
structure Opening where
  start : Nat
  level : Nat

/-- A key of a map, and the offset up to which the text is looked at before its value. -/
structure Key where
  name : Except Fault String
  next : Nat

/-- A value of a text with its places. -/
inductive Tree where
  | leaf (start stop : Nat) (scalar : Scalar)
  | broken (start : Nat) (fault : Break)
  | list (opening : Opening) (items : List Tree) (closing : Closing)
  | map (opening : Opening) (entries : List (Key × Tree)) (closing : Closing)

/-- A list or a map that awaits a value; its earlier contents stand in reverse order. -/
inductive Frame where
  | list (opening : Opening) (items : List Tree)
  | entry (opening : Opening) (entries : List (Key × Tree)) (key : Key)

/-- Where inside its brackets a list or a map stands. -/
inductive Place where
  | opened
  | filled
  | comma

/-- What may come next, and the frames that await the value being read. -/
inductive Outlining where
  | value (frames : List Frame)
  | list (place : Place) (opening : Opening) (items : List Tree) (frames : List Frame)
  | map (place : Place) (opening : Opening) (entries : List (Key × Tree)) (frames : List Frame)
  | colon (opening : Opening) (entries : List (Key × Tree)) (key : Key) (frames : List Frame)

/-- What a token leads to. -/
inductive OutlineStep where
  | next (state : Outlining)
  | complete (tree : Tree)
  | broken (tree : Tree)

namespace Tree

/-- Where the value starts. -/
def start : Tree → Nat
  | .leaf start _ _ | .broken start _ => start
  | .list opening _ _ | .map opening _ _ => opening.start

/-- The bracket that a token opens inside frames. -/
def opening (frames : List Frame) (token : Token) : Opening :=
  match frames with
  | [] => ⟨token.start, 1⟩
  | .list outer _ :: _ | .entry outer _ _ :: _ => ⟨token.start, outer.level + 1⟩

/-- Hands a value that holds a break to the frames around it, which break off as well. -/
def unwind (fault : Break) : List Frame → Tree → Tree
  | [], tree => tree
  -- A frame closes over what it holds so far, with the value as the last part.
  | .list opening items :: below, tree =>
    unwind fault below (.list opening (tree :: items).reverse (.broken fault))
  | .entry opening entries key :: below, tree =>
    unwind fault below (.map opening ((key, tree) :: entries).reverse (.broken fault))

/-- A value that breaks off. -/
def breakValue (frames : List Frame) (start : Nat) (fault : Break) : Tree :=
  unwind fault frames (.broken start fault)

/-- A list that breaks off between its items. -/
def breakList (opening : Opening) (items : List Tree) (frames : List Frame)
    (fault : Break) : Tree :=
  unwind fault frames (.list opening items.reverse (.broken fault))

/-- A map that breaks off between its entries. -/
def breakMap (opening : Opening) (entries : List (Key × Tree)) (frames : List Frame)
    (fault : Break) : Tree :=
  unwind fault frames (.map opening entries.reverse (.broken fault))

/-- Hands a whole value to the frame that awaits it. -/
def fill (tree : Tree) : List Frame → OutlineStep
  | [] => .complete tree
  | .list opening items :: below => .next (.list .filled opening (tree :: items) below)
  | .entry opening entries key :: below =>
    .next (.map .filled opening ((key, tree) :: entries) below)

/-- A token where a value has to start. -/
def stepValue (frames : List Frame) (token : Token) : OutlineStep :=
  match token.kind with
  | .scalar scalar => fill (.leaf token.start token.stop scalar) frames
  | .openArray => .next (.list .opened (opening frames token) [] frames)
  | .openObject => .next (.map .opened (opening frames token) [] frames)
  | .broken fault | .brokenString fault => .broken (breakValue frames token.start fault)
  | _ => .broken (breakValue frames token.start (.always .noValue (token.start + 1)))

/-- A token between the items of a list. -/
def stepList (place : Place) (opening : Opening) (items : List Tree) (frames : List Frame)
    (token : Token) : OutlineStep :=
  match place, token.kind with
  -- A closing bracket behind a comma is a fault of its own.
  | .comma, .closeArray =>
    let seen := token.start + 1
    .broken (breakList opening items frames ⟨⟨.trailingComma, seen⟩, ⟨.noValue, seen⟩⟩)
  | _, .closeArray => fill (.list opening items.reverse (.closed token.stop)) frames
  | .filled, .comma => .next (.list .comma opening items frames)
  | .filled, _ =>
    .broken (breakList opening items frames (.always .noListSeparator (token.start + 1)))
  -- Where an item is expected, any value may start.
  | _, _ => stepValue (.list opening items :: frames) token

/-- A token between the entries of a map; `next` is the offset up to which the text behind it is
    looked at. -/
def stepMap (place : Place) (opening : Opening) (entries : List (Key × Tree)) (frames : List Frame)
    (next : Nat) (token : Token) : OutlineStep :=
  match place, token.kind with
  -- Reading and passing over put the blame for a trailing comma differently.
  | .comma, .closeObject =>
    let seen := token.start + 1
    .broken (breakMap opening entries frames ⟨⟨.trailingComma, seen⟩, ⟨.keyNotString, seen⟩⟩)
  | _, .closeObject => fill (.map opening entries.reverse (.closed token.stop)) frames
  | .filled, .comma => .next (.map .comma opening entries frames)
  | .filled, _ =>
    .broken (breakMap opening entries frames (.always .noObjectSeparator (token.start + 1)))
  -- Only a string may be a key, and a colon has to follow it.
  | _, .scalar (.string name) => .next (.colon opening entries ⟨name, next⟩ frames)
  | _, .brokenString fault => .broken (breakMap opening entries frames fault)
  | _, _ => .broken (breakMap opening entries frames (.always .keyNotString (token.start + 1)))

/-- What a token leads to. -/
def step (state : Outlining) (next : Nat) (token : Token) : OutlineStep :=
  match state with
  | .value frames => stepValue frames token
  | .list place opening items frames => stepList place opening items frames token
  | .map place opening entries frames => stepMap place opening entries frames next token
  -- Behind a key nothing but a colon is let through.
  | .colon opening entries key frames =>
    match token.kind with
    | .colon => .next (.value (.entry opening entries key :: frames))
    | _ =>
      .broken (breakValue (.entry opening entries key :: frames) token.start
        (.always .noColon (token.start + 1)))

/-- The outline of a text that ends too early. -/
def finish (stop : Nat) : Outlining → Tree
  | .value frames => breakValue frames stop (.always .endInValue stop)
  -- Behind a comma a value is missing, and otherwise the bracket.
  | .list .comma opening items frames => breakList opening items frames (.always .endInValue stop)
  | .list _ opening items frames => breakList opening items frames (.always .endInList stop)
  | .map .comma opening entries frames =>
    breakMap opening entries frames ⟨⟨.endInValue, stop⟩, ⟨.endInObject, stop⟩⟩
  | .map _ opening entries frames => breakMap opening entries frames (.always .endInObject stop)
  | .colon opening entries key frames =>
    breakValue (.entry opening entries key :: frames) stop (.always .endInObject stop)

/-- How far the text is looked at behind a key: up to the next token, past a closing brace. -/
def lookAhead (stop : Nat) : List Token → Nat
  | [] => stop
  | token :: _ =>
    -- A closing brace is read at once, any other token only peeked at.
    match token.kind with
    | .closeObject => token.stop
    | _ => token.start

/-- The outline of the value that tokens start with, and the tokens behind it. -/
def ofTokens (stop : Nat) (state : Outlining) : List Token → Tree × List Token
  | [] => (finish stop state, [])
  | token :: rest =>
    match step state (lookAhead stop rest) token with
    | .next state => ofTokens stop state rest
    -- The tokens behind the value are left over.
    | .complete tree => (tree, rest)
    | .broken tree => (tree, [])

end Tree

end DocPatch
