import DocPatch.Proofs.Json.Outline
import DocPatch.Proofs.Json.Spelling

/-! A value whose text can be read is read from it: the tokens of the text build an outline that
    writes the value. -/

namespace DocPatch

namespace Tree

/-- What comes of the tokens behind one that led somewhere. -/
def resume (stop : Nat) (more : List Token) : OutlineStep → Tree × List Token
  | .next state => ofTokens stop state more
  | .complete tree => (tree, more)
  -- Nothing is told apart behind a break, so no tokens are left over.
  | .broken tree => (tree, [])

theorem ofTokens_cons (stop : Nat) (state : Outlining) (token : Token) (rest : List Token) :
    ofTokens stop state (token :: rest) =
      resume stop rest (step state (lookAhead stop rest) token) := by
  -- The state takes the token, and goes on with the rest or stops.
  rw [ofTokens]
  cases step state (lookAhead stop rest) token <;> rfl

/-- How many brackets are open around a value that frames await. -/
def levelOf : List Frame → Nat
  | [] => 0
  | .list outer _ :: _ | .entry outer _ _ :: _ => outer.level

theorem level_opening (frames : List Frame) (token : Token) :
    (opening frames token).level = levelOf frames + 1 := by
  -- A bracket is one level deeper than the frames around it, whether it is too deep or not.
  unfold opening
  split <;> rfl

/-- A value is taken for one that some frames await. The bracket that closes a list is none. -/
def Awaits (state : Outlining) (frames : List Frame) : Prop :=
  ∀ next token, token.kind ≠ .closeArray → step state next token = stepValue frames token

/-- Where an item may stand, its list awaits it. -/
theorem awaits_item {place : Place} (free : place ≠ .filled) (opening : Opening)
    (items : List Tree) (below : List Frame) :
    Awaits (.list place opening items below) (.list opening items :: below) := by
  -- In a list that is not filled, any token but a closing bracket begins an item.
  intro next token other
  obtain ⟨kind, start, last⟩ := token
  cases place with
  | filled => exact absurd rfl free
  | opened | comma =>
    cases kind with
    | closeArray => exact absurd rfl other
    | _ => rfl

/-- Where brackets stand: behind the opening one, or behind something in them. -/
def placeOf (behind : Bool) : Place := if behind then .filled else .opened

variable {stop : Nat} {more : List Token}

/-- The token of a scalar is an outline of it. -/
theorem ofTokens_scalar {scalar : Scalar} {value : Json} (read : readScalar scalar = .ok value)
    {tokens : List Token} {state : Outlining} {frames : List Frame}
    (same : tokens.map Token.kind = [.scalar scalar]) (awaits : Awaits state frames) :
    ∃ tree, tree.Writes value ∧
      ofTokens stop state (tokens ++ more) = resume stop more (fill tree frames) := by
  -- There is one token, and the state awaits what it is an outline of.
  obtain ⟨⟨kind, start, last⟩, rfl, rfl⟩ := List.map_eq_singleton_iff.mp same
  refine ⟨.leaf start last scalar, .scalar _ _ read, ?_⟩
  rw [List.singleton_append, ofTokens_cons, awaits _ _ (by simp)]
  rfl

/-- Past the comma, if there has to be one, another part may stand inside of brackets that let
    commas pass. -/
theorem ofTokens_comma (stop : Nat) (more : List Token) (inside : Place → Outlining)
    (passes : ∀ next token, token.kind = .comma →
      step (inside .filled) next token = .next (inside .comma))
    {behind : Bool} {tokens : List Token} {kinds : List TokenKind}
    (same : tokens.map Token.kind = Json.comma behind ++ kinds) :
    ∃ rest place, rest.map Token.kind = kinds ∧ place ≠ .filled ∧
      ofTokens stop (inside (placeOf behind)) (tokens ++ more) =
        ofTokens stop (inside place) (rest ++ more) := by
  -- A comma is taken only where a part stands before.
  cases behind with
  | false => exact ⟨tokens, .opened, same, nofun, rfl⟩
  | true =>
    obtain ⟨comma, rest, rfl, kind, same⟩ := List.map_eq_cons_iff.mp same
    refine ⟨rest, .comma, same, nofun, ?_⟩
    rw [List.cons_append, ofTokens_cons, placeOf, if_pos rfl, passes _ _ kind, resume]

/-- A key and its colon lead to where the value of the entry may stand. -/
theorem ofTokens_key {place : Place} (free : place ≠ .filled) {opening : Opening}
    {before : List (Key × Tree)} {below : List Frame} {tokens : List Token} {name : String}
    {kinds : List TokenKind}
    (same : tokens.map Token.kind = .scalar (.string (.ok name)) :: .colon :: kinds) :
    ∃ rest next, rest.map Token.kind = kinds ∧
      ofTokens stop (.map place opening before below) (tokens ++ more) =
        ofTokens stop (.value (.entry opening before ⟨.ok name, next⟩ :: below))
          (rest ++ more) := by
  -- The key is taken first, and then the colon moves on to the value.
  obtain ⟨key, tokens, rfl, named, same⟩ := List.map_eq_cons_iff.mp same
  obtain ⟨colon, rest, rfl, kind, same⟩ := List.map_eq_cons_iff.mp same
  refine ⟨rest, lookAhead stop (colon :: rest ++ more), same, ?_⟩
  cases place with
  | filled => exact absurd rfl free
  | opened | comma =>
    simp only [List.cons_append, ofTokens_cons, step, stepMap, named, kind, resume]

mutual

/-- The tokens of a value build an outline that writes it, which is handed to the frames
    that await it. -/
theorem ofTokens_kinds (stop : Nat) (more : List Token) :
    ∀ {value : Json} {tokens : List Token} {state : Outlining} {frames : List Frame},
    tokens.map Token.kind = value.kinds → Awaits state frames →
    value.Readable (levelOf frames) → ∃ tree, tree.Writes value ∧
      ofTokens stop state (tokens ++ more) = resume stop more (fill tree frames)
  -- The induction follows the value: a bracket opens a frame, its parts fill it, and its
  -- end closes it.
  | .null, _, _, _, same, awaits, _ | .bool _, _, _, _, same, awaits, _
  | .number _, _, _, _, same, awaits, _ | .string _, _, _, _, same, awaits, _ =>
    ofTokens_scalar rfl same awaits
  | .array items, tokens, state, frames, same, awaits, readable => by
    obtain ⟨first, others, rfl, kind, same⟩ := List.map_eq_cons_iff.mp same
    obtain ⟨shallow, inner⟩ := readable
    rw [← level_opening frames first] at shallow inner
    obtain ⟨trees, last, written, closed⟩ :=
      @ofTokens_kindsItems stop more items others false (opening frames first) [] frames same inner
    refine ⟨.list (opening frames first) trees (.closed last), .array _ shallow written, ?_⟩
    -- The state awaits a value, so that the bracket opens a list for it.
    have opens : ∀ next,
        step state next first = .next (.list .opened (opening frames first) [] frames) := by
      intro next
      rw [awaits next first (by simp [kind])]
      simp only [stepValue, kind]
    rw [List.cons_append, ofTokens_cons, opens]
    exact closed
  | .object fields, tokens, state, frames, same, awaits, readable => by
    obtain ⟨first, others, rfl, kind, same⟩ := List.map_eq_cons_iff.mp same
    obtain ⟨shallow, inner⟩ := readable
    rw [← level_opening frames first] at shallow inner
    obtain ⟨entries, last, written, closed⟩ :=
      @ofTokens_kindsFields stop more fields others false (opening frames first)
        [] frames same inner
    refine ⟨.map (opening frames first) entries (.closed last), .object _ shallow written, ?_⟩
    have opens : ∀ next,
        step state next first = .next (.map .opened (opening frames first) [] frames) := by
      intro next
      rw [awaits next first (by simp [kind])]
      simp only [stepValue, kind]
    rw [List.cons_append, ofTokens_cons, opens]
    exact closed

/-- The tokens of items build outlines that write them, behind those that stand before, and
    close the list. -/
theorem ofTokens_kindsItems (stop : Nat) (more : List Token) :
    ∀ {items : List Json} {tokens : List Token} {behind : Bool} {opening : Opening}
      {before : List Tree} {below : List Frame},
    tokens.map Token.kind = Json.kindsItems behind items → Json.ItemsReadable opening.level items →
    ∃ trees last, WritesItems trees items ∧
      ofTokens stop (.list (placeOf behind) opening before below) (tokens ++ more) =
        resume stop more (fill (.list opening (before.reverse ++ trees) (.closed last)) below)
  -- The induction follows the items; each is built behind those before and becomes one of them.
  | [], tokens, behind, opening, before, below, same, _ => by
    obtain ⟨last, rfl, closes⟩ := List.map_eq_singleton_iff.mp same
    refine ⟨[], last.stop, .nil, ?_⟩
    rw [List.singleton_append, ofTokens_cons, List.append_nil]
    cases behind <;> simp [placeOf, step, stepList, closes]
  | item :: rest, tokens, behind, opening, before, below, same, readable => by
    -- The comma, if there is one, and the item come first.
    obtain ⟨tokens', place, same, free, past⟩ :=
      ofTokens_comma stop more (.list · opening before below)
        (fun next token kind => by simp only [step, stepList, kind]) same
    obtain ⟨mine, theirs, rfl, head, tail⟩ := List.map_eq_append_iff.mp same
    obtain ⟨tree, writes, built⟩ := ofTokens_kinds stop (theirs ++ more) head
      (awaits_item free opening before below) readable.1
    obtain ⟨trees, last, written, closed⟩ :=
      @ofTokens_kindsItems stop more rest theirs true opening (tree :: before) below tail readable.2
    have joined : (tree :: before).reverse ++ trees = before.reverse ++ tree :: trees := by simp
    refine ⟨tree :: trees, last, .cons writes written, ?_⟩
    rw [past, List.append_assoc, built, ← joined]
    exact closed

/-- The tokens of entries build outlines that write them, behind those that stand before, and
    close the map. -/
theorem ofTokens_kindsFields (stop : Nat) (more : List Token) :
    ∀ {fields : List (String × Json)} {tokens : List Token} {behind : Bool} {opening : Opening}
      {before : List (Key × Tree)} {below : List Frame},
    tokens.map Token.kind = Json.kindsFields behind fields →
    Json.FieldsReadable opening.level fields →
    ∃ entries last, WritesFields entries fields ∧
      ofTokens stop (.map (placeOf behind) opening before below) (tokens ++ more) =
        resume stop more (fill (.map opening (before.reverse ++ entries) (.closed last)) below)
  -- The induction follows the entries; each takes a comma, a key, a colon and the
  -- tokens of its value.
  | [], tokens, behind, opening, before, below, same, _ => by
    obtain ⟨last, rfl, closes⟩ := List.map_eq_singleton_iff.mp same
    refine ⟨[], last.stop, .nil, ?_⟩
    rw [List.singleton_append, ofTokens_cons, List.append_nil]
    cases behind <;> simp [placeOf, step, stepMap, closes]
  | (name, value) :: rest, tokens, behind, opening, before, below, same, readable => by
    obtain ⟨tokens', place, same, free, past⟩ :=
      ofTokens_comma stop more (.map · opening before below)
        (fun next token kind => by simp only [step, stepMap, kind]) same
    obtain ⟨tokens', next, same, keyed⟩ :=
      @ofTokens_key stop more place free opening before below tokens' name _ same
    obtain ⟨mine, theirs, rfl, head, tail⟩ := List.map_eq_append_iff.mp same
    obtain ⟨tree, writes, built⟩ := @ofTokens_kinds stop (theirs ++ more) value mine
      (.value (.entry opening before ⟨.ok name, next⟩ :: below)) _ head
      (fun _ _ _ => rfl) readable.1
    obtain ⟨entries, last, written, closed⟩ :=
      @ofTokens_kindsFields stop more rest theirs true opening
        ((⟨.ok name, next⟩, tree) :: before) below tail readable.2
    -- The entry moves to the entries that stand before.
    have joined : ((⟨.ok name, next⟩, tree) :: before).reverse ++ entries =
        before.reverse ++ (⟨.ok name, next⟩, tree) :: entries := by simp
    refine ⟨(⟨.ok name, next⟩, tree) :: entries, last, .cons rfl writes written, ?_⟩
    rw [past, keyed, List.append_assoc, built, ← joined]
    exact closed

end

/-- A reader that reads something from every outline of a value reads it from the text of the value,
    if that can be read. -/
theorem readText_compact {α : Type} {reader : Tree → Except Fault α} {value : Json} {result : α}
    (reads : ∀ tree : Tree, tree.Writes value → reader tree = .ok result)
    (readable : value.Readable 0) : readText reader value.compact = .ok result := by
  -- The text is taken apart into the tokens of the value, and these build an outline
  -- that writes it.
  obtain ⟨tokens, stop, same, taken⟩ := Json.spells_compact value readable 0 [] nofun
  obtain ⟨tree, writes, built⟩ := @ofTokens_kinds value.compact.utf8ByteSize
    [] value tokens (.value []) [] same (fun _ _ _ => rfl) readable
  have tokens_eq : Token.ofText 0 value.compact.toList = tokens ++ [] := by
    rw [← List.append_nil value.compact.toList, taken, Token.ofText]
  have outline : ofTokens value.compact.utf8ByteSize (.value []) (tokens ++ []) =
      (tree, []) := built
  simp only [readText, tokens_eq, outline, reads tree writes]
  rfl

end Tree

/-- A value whose text can be read is read from its text. -/
theorem Json.parse_compact {value : Json} (keyed : value.WellKeyed) (readable : value.Readable 0) :
    parse value.compact = .ok value :=
  Tree.readText_compact (fun _ writes => writes.read keyed) readable

end DocPatch
