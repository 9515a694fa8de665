import ProtoWire.Query
import ProtoWire.Session

/-!
# `ProtoWire.Query.Edit`: changing a query in a session
-/

set_option autoImplicit false

namespace ProtoWire.Query

/-- A change to a query. -/
inductive Edit where
  | setQuery (text : String)
  | appendQuery (text : String)
  | dropLastChar
  /-- Hands over the text and leaves the field empty. -/
  | takeQuery
  | clearQuery
  | setPageNumber (n : Int32)
  | setPageSize (n : Int32)
  | clearPageNumber
  | clearPageSize
  /-- Back to the default of every field, without unknown records. -/
  | clear
  /-- Lays the query in another slot over this one. -/
  | mergeFrom (source : String)
  deriving DecidableEq, Repr

/-- What a change hands back. -/
inductive Edit.Answer where
  | nothing
  | dropped (last : Option Char)
  | taken (text : String)
  deriving DecidableEq, Repr

/-- Makes a change. -/
def edit (slots : String → Query) : Edit → Query → Query × Edit.Answer
  | .setQuery text, q => ({ q with query := text }, .nothing)
  | .appendQuery text, q => (q.append text, .nothing)
  | .dropLastChar, q => (q.dropLastChar, .dropped q.lastChar?)
  | .takeQuery, q => ({ q with query := "" }, .taken q.query)
  | .clearQuery, q => ({ q with query := "" }, .nothing)
  | .setPageNumber n, q => ({ q with pageNumber := n }, .nothing)
  | .setPageSize n, q => ({ q with pageSize := n }, .nothing)
  | .clearPageNumber, q => ({ q with pageNumber := 0 }, .nothing)
  | .clearPageSize, q => ({ q with pageSize := 0 }, .nothing)
  | .clear, _ => ({}, .nothing)
  | .mergeFrom source, q => (q.mergeFrom (slots source), .nothing)

instance : Editable Query where
  Edit := Edit
  Answer := Edit.Answer
  edit := edit

end ProtoWire.Query
