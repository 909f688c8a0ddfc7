import Fieldwise.Preprocess.Piece

/-!
# Macros

Replacing names by the pieces they are defined as. A macro with parameters is replaced where
arguments in parentheses follow it; the arguments are replaced themselves first, except next to the
operators that join pieces (`##`) and make strings (`#`). A name is not replaced again in what it
was replaced by.
-/

namespace Fieldwise

/-- The definition of a name. -/
structure Macro where
  /-- The parameters; none for a name that is replaced wherever it stands. -/
  params : Option (List String) := none
  /-- Whether the last parameter takes all further arguments. -/
  variadic : Bool := false
  body : List Piece

/-- The definitions in force. -/
abbrev Macros := List (String × Macro)

namespace Macros

/-- Defines a name, in place of an earlier definition. -/
def define (ms : Macros) (name : String) (m : Macro) : Macros :=
  (name, m) :: ms.filter (·.1 != name)

/-- Removes the definition of a name. -/
def undefine (ms : Macros) (name : String) : Macros := ms.filter (·.1 != name)

/-- Whether a name is defined. -/
def defines (ms : Macros) (name : String) : Bool := (ms.lookup name).isSome

end Macros

namespace Macro

/-! ### Arguments -/

/-- The arguments of a macro after its opening parenthesis, and what follows the closing one.
`depth` counts inner parentheses, and `current` is the argument being read, in reverse. -/
def collect (depth : Nat) (current : List Piece) :
    List Piece → Option (List (List Piece) × List Piece)
  | [] => none
  | p :: ps =>
    if p.isMark "(" then collect (depth + 1) (p :: current) ps
    else if p.isMark ")" then
      match depth with
      | 0 => some ([Piece.trim current.reverse], ps)
      | d + 1 => collect d (p :: current) ps
    else if p.isMark "," && depth == 0 then
      (collect 0 [] ps).map fun (args, rest) => (Piece.trim current.reverse :: args, rest)
    else
      let p := if p.kind == .newline then { p with kind := .blank, text := " " } else p
      collect depth (p :: current) ps

/-- Arguments from one on, with commas between them. -/
def joinArgs : List (List Piece) → List Piece
  | [] => []
  | [a] => a
  | a :: rest => a ++ { kind := .mark, text := ",", line := 0 } :: joinArgs rest

/-- The arguments as one for each parameter, if their number is right. -/
def fitArgs (params : List String) (variadic : Bool) (args : List (List Piece)) :
    Option (List (List Piece)) :=
  let n := params.length
  if variadic then
    if n ≤ args.length + 1 then
      some (args.take (n - 1) ++ [joinArgs (args.drop (n - 1))])
    else none
  else if args.length == n then some args
  else if n == 0 && args.all List.isEmpty && args.length == 1 then some []
  else none

/-! ### Substitution -/

/-- The pieces between the joining operators of a body. -/
def segments : List Piece → List (List Piece)
  | [] => [[]]
  | p :: ps =>
    if p.isMark "##" then [] :: segments ps
    else
      match segments ps with
      | [] => [[p]]
      | s :: rest => (p :: s) :: rest

/-- A text as a string literal. -/
def quoted (text : String) : String :=
  String.ofList ('"' :: text.toList.flatMap (fun c =>
    if c == '"' || c == '\\' then ['\\', c] else [c]) ++ ['"'])

/-- One segment with arguments for parameters. The first piece takes the argument as it is written
if `rawStart`, and the last one if `rawEnd`; other pieces take the replaced argument. -/
def fill (raw replaced : List (String × List Piece)) (rawStart rawEnd : Bool) :
    List Piece → List Piece
  | [] => []
  | [p] =>
    if p.kind == .name then
      match (if rawStart || rawEnd then raw else replaced).lookup p.text with
      | some arg => arg
      | none => [p]
    else [p]
  | p :: q :: rest =>
    if p.isMark "#" && q.kind == .name && (raw.lookup q.text).isSome then
      { p with kind := .literal, text := quoted (Piece.textOf ((raw.lookup q.text).getD [])) } ::
        fill raw replaced false rawEnd rest
    else
      let filled := if p.kind == .name then
          ((if rawStart then raw else replaced).lookup p.text).getD [p]
        else [p]
      filled ++ fill raw replaced false rawEnd (q :: rest)

/-- All segments with arguments for parameters. -/
def fillAll (raw replaced : List (String × List Piece)) (first : Bool) :
    List (List Piece) → List (List Piece)
  | [] => []
  | s :: rest =>
    fill raw replaced (!first) (!rest.isEmpty) (Piece.trim s) :: fillAll raw replaced false rest

/-- Two runs of pieces with the last and the first piece joined. -/
def paste (left right : List Piece) : List Piece :=
  match left.getLast?, right with
  | some a, b :: rest =>
    let text := a.text ++ b.text
    left.dropLast ++ { a with text, kind := (Piece.measure text.toList).1 } :: rest
  | _, _ => left ++ right

/-- The pieces that a body becomes with arguments for its parameters. -/
def substitute (body : List Piece) (raw replaced : List (String × List Piece)) : List Piece :=
  match segments body with
  | [s] => fill raw replaced false false s
  | ss =>
    match fillAll raw replaced true ss with
    | [] => []
    | s :: rest => rest.foldl paste s

/-! ### Replacement -/

/-- The pieces that take the place of `p`: on its line, and not to be replaced by its name again. -/
def settle (p : Piece) (ps : List Piece) : List Piece :=
  ps.map fun q => { q with line := p.line, hidden := p.text :: p.hidden ++ q.hidden }

/-- Replaces the defined names among pieces, in at most `fuel` steps. The state tells whether
arguments of a macro were missing. -/
def expand (ms : Macros) : Nat → List Piece → StateM Bool (List Piece)
  | 0, ps => return ps
  | _, [] => return []
  | fuel + 1, p :: ps => do
    let keep := do return p :: (← expand ms fuel ps)
    if p.kind == .name && p.text == "__LINE__" then
      return { p with kind := .number, text := toString p.line } :: (← expand ms fuel ps)
    else if p.kind != .name || p.hidden.contains p.text then keep
    else
      match ms.lookup p.text with
      | none => keep
      | some m =>
        match m.params with
        | none => expand ms fuel (settle p (substitute m.body [] []) ++ ps)
        | some params =>
          match Piece.dropBlanks ps with
          | open_ :: rest =>
            if open_.isMark "(" then
              match collect 0 [] rest with
              | none => set true; keep
              | some (args, after) =>
                match fitArgs params m.variadic args with
                | none => set true; keep
                | some args => do
                  let replaced ← args.mapM (expand ms fuel)
                  let body := substitute m.body (params.zip args) (params.zip replaced)
                  expand ms fuel (settle p body ++ after)
            else keep
          | [] => keep

/-! ### Definitions -/

/-- The names of parameters up to the closing parenthesis, whether the last takes all further
arguments, and what follows. -/
def parameters : List Piece → Option (List String × Bool × List Piece)
  | [] => none
  | p :: ps =>
    if p.isBlank || p.isMark "," then parameters ps
    else if p.isMark ")" then some ([], false, ps)
    else if p.isMark "..." then
      match parameters ps with
      | some (names, _, rest) => some (if names.isEmpty then ["__VA_ARGS__"] else names, true, rest)
      | none => none
    else if p.kind == .name then
      match parameters ps with
      | some (names, variadic, rest) =>
        let namesRest := (Piece.dropBlanks ps).head?.any (·.isMark "...")
        if variadic && names == ["__VA_ARGS__"] && namesRest then
          some ([p.text], true, rest)
        else some (p.text :: names, variadic, rest)
      | none => none
    else none

/-- The name and the definition that the rest of a line gives. Parameters follow the name without a
blank, and everything else after one. -/
def ofLine : List Piece → Option (String × Macro)
  | [] => none
  | [name] => some (name.text, { body := [] })
  | name :: p :: after =>
    if p.isMark "(" then
      (parameters after).map fun (params, variadic, body) =>
        (name.text, { params := some params, variadic, body := Piece.trim body })
    else if p.isBlank then some (name.text, { body := Piece.trim after })
    else none

end Macro

end Fieldwise
