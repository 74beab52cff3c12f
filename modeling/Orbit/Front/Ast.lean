import Mathlib.Data.List.Basic

/-!
# The syntax tree

`compiler/front/ast.orb`: one constructor of `ASTNode` for each variant of the source's union, with
the fields of its node model. Lines and columns are counters and plain integers. A node of a
statement list, of an argument list or of a list of cases is an `ASTNode` like any other, so a list
may hold any constructor; the passes skip those they do not expect.
-/

namespace Front

inductive ASTNode where
  | program (decls : List ASTNode)
  | functionDecl (name : String) (params paramTypes : List String) (returnType : String)
      (body : ASTNode) (isAsync isPrivate isExtern : Bool) (genericParams : List ASTNode)
      (isExport : Bool)
  | routeDecl (httpMethod path : String) (decorators : List ASTNode) (body : ASTNode)
      (hasLimit : Bool) (limitRate limitWindowMs limitBurst : Int)
  | modelDecl (name : String) (fields genericParams : List ASTNode)
  | typeDecl (name kind : String) (variants : List ASTNode) (baseType : String)
      (variantPayloads : List String)
  | fieldDecl (name fieldType : String) (decorators : List ASTNode)
  | traitDecl (name : String) (genericParams methods : List ASTNode) (isPrivate : Bool)
  | implDecl (traitName typeName : String) (methods : List ASTNode)
  | varDecl (name : String) (isMutable : Bool) (value : ASTNode) (annotated : String)
      (line col : Int)
  | constDecl (name : String) (value : ASTNode) (isPrivate : Bool) (line col : Int)
  | scheduleDecl (amount unit atTime : String) (handler : ASTNode)
  | configDecl (key : String) (value : ASTNode) (line col : Int)
  | migrationDecl (sql : String)
  | importStmt (path : String)
  | useStmt (module : String)
  | expressionStmt (expr : ASTNode)
  | ifNode (condition thenBody elseBody : ASTNode)
  | whileNode (condition body : ASTNode)
  | forNode (item : String) (iterable body : ASTNode) (indexVar label : String)
  | returnNode (expr : ASTNode)
  | returnOk (expr : ASTNode) (status : String)
  | returnErr (expr : ASTNode) (code : String)
  | matchNode (expr : ASTNode) (cases : List ASTNode) (line col : Int)
  | matchCase (pattern body : ASTNode)
  | tryNode (expr catchBody : ASTNode) (errName : String)
  | literal (valType text : String)
  | interp (parts : List ASTNode) (isRaw : Bool)
  | objectLiteral (fields : List ASTNode)
  | binaryOp (op : String) (lhs rhs : ASTNode) (line col : Int)
  | unaryOp (op : String) (operand : ASTNode)
  | call (callee : ASTNode) (args : List ASTNode) (line col : Int)
  | memberAccess (object : ASTNode) (field : String) (line col : Int)
  | indexAccess (object index : ASTNode) (line col : Int)
  | listLiteral (elements : List ASTNode)
  | assignment (target value : ASTNode)
  | typeAnn (token : String) (isNullable : Bool)
  | genericParam (name constraint : String)
  | decorator (name : String) (arguments : List ASTNode)
  | block (statements : List ASTNode)
  | breakNode (label : String)
  | continueNode (label : String)
  | fieldInit (name : String) (value : ASTNode)
  | typedLiteral (value : ASTNode) (declaredType : String)
  | empty
  | range (lo hi : ASTNode) (line col : Int)

end Front
