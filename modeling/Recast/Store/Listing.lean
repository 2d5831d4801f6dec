import Recast.Store.Basic

/-!
# Listings of stored nodes

One line of text for each node of a store as it is held: ids, numbers of interned names and slices
of pools. A record is written `Title { field: value, .. }`, an alternative with one value
`Title(value)`.
-/

namespace Recast

namespace Listing

/-- A record with its fields. -/
def record (title : String) (fields : List (String × String)) : String :=
  title ++ " \x7b " ++ ", ".intercalate (fields.map fun (key, value) => key ++ ": " ++ value)
    ++ " \x7d"

/-- A record of which only some fields are listed. -/
def openRecord (title : String) (fields : List (String × String)) : String :=
  title ++ " \x7b " ++ String.join (fields.map fun (key, value) => key ++ ": " ++ value ++ ", ")
    ++ ".. \x7d"

/-- An alternative with one value. -/
def tagged (title value : String) : String := title ++ "(" ++ value ++ ")"

/-- A list in brackets. -/
def bracketed (items : List String) : String := "[" ++ ", ".intercalate items ++ "]"

/-- The id of an expression. -/
def exprId (id : ExprId) : String := tagged "ExprId" (toString id)

/-- The id of a statement. -/
def stmtId (id : StmtId) : String := tagged "StmtId" (toString id)

/-- The id of a function. -/
def functionId (id : FunctionId) : String := tagged "FuncId" (toString id)

/-- A list of expressions. -/
def exprSlice (s : Slice ExprId) : String := s.render "ExprRange"

/-- A written type. -/
def typeRef (t : TypeRef Name) : String :=
  record "TypeRef" [("name", t.name.render), ("span", t.span.text)]

/-- An optional written type. -/
def typeRef? : Option (TypeRef Name) → String
  | none => "None"
  | some t => tagged "Some" (typeRef t)

/-- A node: its shape and its span. -/
def node {σ : Type} (shape : σ → String) (n : Node σ) : String :=
  shape n.shape ++ " @ " ++ n.span.text

/-- The shape of an expression. -/
def exprShape : ExprShape Name Slice → String
  | .literal .int lexeme => tagged "Int" lexeme.render
  | .literal .float lexeme => tagged "Float" lexeme.render
  | .name text => tagged "Ident" text.render
  | .paren inner => tagged "Paren" (exprId inner)
  | .neg operand => record "Unary" [("op", "Neg"), ("operand", exprId operand)]
  | .binary op left right =>
    record "Binary" [("op", op.title), ("left", exprId left), ("right", exprId right)]
  | .call callee args => record "Call" [("func", exprId callee), ("args", exprSlice args)]

/-- The shape of a statement. -/
def stmtShape : StmtShape Name Slice → String
  | .var names type? values =>
    record "Var" [("names", names.render "NameRange"), ("ty", typeRef? type?),
      ("values", exprSlice values)]
  | .assign targets values =>
    record "Assign" [("lhs", exprSlice targets), ("rhs", exprSlice values)]
  | .ret results => record "Return" [("results", exprSlice results)]
  | .expr e => tagged "Expr" (exprId e)

/-- A function. -/
def function (n : Node (FunctionShape Name Slice)) : String :=
  record "Function" [("name", n.shape.name.render), ("params", n.shape.params.render "ParamRange"),
    ("results", n.shape.results.render "TypeRange"), ("body", n.shape.body.render "StmtRange"),
    ("span", n.span.text)]

/-- A parameter. -/
def param (p : Param Name) : String :=
  record "Param" [("name", p.name.render), ("ty", typeRef p.type),
    ("variadic", toString p.variadic), ("span", p.span.text)]

/-- A comment. -/
def comment (c : Comment Name) : String :=
  record "Comment" [("text", c.text.render), ("span", c.span.text),
    ("trailing", toString c.trailing)]

/-- Comments and blank lines. -/
def trivia (t : Trivia Name) : String :=
  record "ModuleExtra" [("comments", bracketed (t.comments.map comment)),
    ("blank_lines", bracketed (t.blankLines.map toString))]

end Listing

namespace Store

/-- The numbers of nodes of each sort. -/
def summary (s : Store) : String :=
  Listing.openRecord "Ast" [("functions", toString s.functions.size),
    ("stmts", toString s.stmts.size), ("exprs", toString s.exprs.size)]

/-- All expressions, one text each. -/
def exprListing (s : Store) : List String :=
  s.exprs.toList.map (Listing.node Listing.exprShape)

/-- The statements of all functions, one text each with the id in front. -/
def stmtListing (s : Store) : List String :=
  s.functions.toList.flatMap fun f =>
    (s.stmtLists.list f.shape.body).filterMap fun id =>
      s.stmts[id]?.map fun n => Listing.stmtId id ++ " " ++ Listing.node Listing.stmtShape n

/-- All functions, one text each with the id in front, every one followed by its parameters. -/
def functionListing (s : Store) : List String :=
  (s.functions.toList.mapIdx fun id f =>
    (Listing.functionId id ++ " " ++ Listing.function f)
      :: (s.params.list f.shape.params).map Listing.param).flatten

end Store

end Recast
