import ProtoWire.Message

/-!
# `ProtoWire.Query`: a search with a page

A query has a text and says which page of the results is wanted, and
how long pages are. Its type is called `Person` where it is named: the
name is part of its identity, and says nothing about what it holds.

`Query.mergeFrom` lays one query over another in memory. Only what is
not at its default is laid over, as with the encoding, in which a
default value leaves no trace.
-/

set_option autoImplicit false

namespace ProtoWire

/-- A search for a text, with the page of the results that is wanted. -/
structure Query where
  query : String := ""
  pageNumber : Int32 := 0
  pageSize : Int32 := 0
  unknown : List Record := []
  deriving DecidableEq

namespace Query

/-- The fields of a query, in the order they are written. -/
def fieldTable : List (Field Query) :=
  [ { number := .one
      type := .string
      get := Query.query
      set := fun text q => { q with query := text } },
    { number := .two
      type := .scalar .int32
      get := Query.pageNumber
      set := fun n q => { q with pageNumber := n } },
    { number := .three
      type := .scalar .int32
      get := Query.pageSize
      set := fun n q => { q with pageSize := n } } ]

instance : Message Query where
  fullName := "Person"
  empty := {}
  fields := fieldTable
  unknown := Query.unknown
  setUnknown := fun records q => { q with unknown := records }

/-- Adds text behind the text of a query. -/
def append (q : Query) (text : String) : Query :=
  { q with query := q.query ++ text }

/-- The last character of the text, if there is one. -/
def lastChar? (q : Query) : Option Char :=
  q.query.toList.getLast?

/-- Drops the last character of the text. -/
def dropLastChar (q : Query) : Query :=
  { q with query := String.ofList q.query.toList.dropLast }

/-- Lays `other` over `q`: every field that is not at its default in
`other` replaces the field of `q`, and the unknown records of `other`
come behind those of `q`. -/
def mergeFrom (q other : Query) : Query where
  query := if other.query.isEmpty then q.query else other.query
  pageNumber := if other.pageNumber = 0 then q.pageNumber else other.pageNumber
  pageSize := if other.pageSize = 0 then q.pageSize else other.pageSize
  unknown := q.unknown ++ other.unknown

end Query

end ProtoWire
