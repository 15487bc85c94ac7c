import ClientBoundary.Ast.Basic
import ClientBoundary.Comment

/-!
# References to client modules

In the server graph a client boundary is not compiled. Its place is taken by a *reference*: a
module of two statements that exports a proxy for the file, below a comment by which later tools
know such a module. All nodes of a reference are synthetic.
-/

namespace ClientBoundary

namespace Reference

/-- The module that provides the proxies. -/
def proxyModule : Text := "private-next-rsc-mod-ref-proxy"

/-- The function that makes a proxy. -/
def proxyFactory : Text := "createProxy"

/-- The comment at the start of a reference. -/
def sentinel : Comment := { kind := .block, text := " __next_internal_client_entry_do_not_use__ " }

/-- An identifier. -/
def ident (name : Text) : Ident := ⟨name, {}⟩

/-- A call of a function with one string. -/
def callWith (function argument : Text) : Expr :=
  .call (.ident (ident function)) [.str ⟨argument, none, {}⟩] {}

/-- The statement that takes the function from its module. -/
def importStmt : Stmt :=
  .varDecl .const
    [.mk (.object [.assign (ident proxyFactory) none {}] {})
      (some (callWith "require" proxyModule)) {}] {}

/-- The statement that exports the proxy of a file. -/
def exportStmt (filepath : Text) : Stmt :=
  .exprStmt
    (.assign "=" (.expr (.member (.ident (ident "module")) (.ident (ident "exports")) {}))
      (callWith proxyFactory filepath) {}) {}

/-- The items of the reference to a file. -/
def items (filepath : Text) : List ModuleItem := [.stmt importStmt, .stmt (exportStmt filepath)]

end Reference

/-- The module with the items of the reference to a file. -/
def Module.referenceTo (m : Module) (filepath : Text) : Module :=
  { m with body := Reference.items filepath }

/-- The table with the comment of a reference to a module. -/
def CommentTable.markReference (t : CommentTable) (m : Module) : CommentTable :=
  t.addLeading (m.span.lo.getD 0) Reference.sentinel

end ClientBoundary
