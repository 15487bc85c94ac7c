import ClientBoundary.Ast.Traversal
import ClientBoundary.Boundary.Denylist
import ClientBoundary.Boundary.Log
import ClientBoundary.Boundary.Prologue
import ClientBoundary.Boundary.Reference

/-!
# Compiling a module

A module is compiled for one graph. Its directives are taken out. If it is a client boundary and
the graph is the server's, it is replaced by a reference and nothing in it is looked at.
Otherwise it stays as it is, its imports are checked, and the pass walks on over its parts. The pass
has no handlers for them, and this walk leaves everything as it is.
-/

namespace ClientBoundary

/-- A compiled module with its comments, all diagnostics so far, and the decisions made for it. -/
structure Compiled where
  module : Module
  comments : CommentTable
  sink : DiagnosticSink
  log : List LogEntry := []

/-- Compile a module for a graph. -/
def compileFor (target : Target) (filepath : Text) (m : Module) (comments : CommentTable)
    (sink : DiagnosticSink) : Compiled :=
  let collected := collect m comments
  let found : List LogEntry :=
    if collected.isClientBoundary then [.boundaryFound filepath] else []
  if target = .server ∧ collected.isClientBoundary then
    { module := collected.module.referenceTo filepath
      comments := collected.comments.markReference collected.module
      sink
      log := found ++ [.referenced filepath] }
  else
    let reports := checkImports target collected.imports
    { module := (collected.module.traverse fun _ => none).2
      comments := collected.comments
      sink := sink.extend reports
      log := found ++ [.checked filepath collected.imports.length target reports.length] }

/-- Compile a module as a configuration says. -/
def compileModule (config : Config) (filename : Text) (m : Module) (comments : CommentTable)
    (sink : DiagnosticSink) : Compiled :=
  if config.enabled then compileFor config.target filename m comments sink
  else { module := m, comments, sink, log := [.disabled filename] }

end ClientBoundary
