import CeeServe.Lib.CString
import CeeServe.Lib.Store

/-! # The message records of http.h

A `char *` is NULL or a byte string. The key and value pointers of a parsed
request lead to blocks that the allocator returned, of which only the cells the
parser stored to are known; a response points to terminated strings.
-/
namespace CeeServe
open CString Store

/-- Cells of a key or value buffer: `malloc(sizeof(char)*256)`. -/
def bufferSize : ℕ := 256

/-- Entries of the header array: `malloc(sizeof(HttpHeader) * 1000)`. -/
def headerCapacity : ℕ := 1000

structure HttpHeader (α : Type) where
  key : α
  value : α
deriving DecidableEq, Repr

abbrev RawHeader := HttpHeader (Block UInt8)

structure HttpRequest where
  method : Option (List UInt8)
  path : Option (List UInt8)
  version : Option (List UInt8)
  headers : List RawHeader
  headerCount : ℤ
  body : Option (List UInt8)

structure HttpResponse where
  version : Option (List UInt8)
  statusDesc : Option (List UInt8)
  body : Option (List UInt8)
  bodyLength : ℤ
  statusCode : ℤ
  headers : List (HttpHeader (List UInt8))
  headerCount : ℤ
deriving DecidableEq, Repr

/-- `memset` to zero: every pointer NULL, every number 0. -/
def HttpRequest.zero : HttpRequest := ⟨none, none, none, [], 0, none⟩

def HttpResponse.zero : HttpResponse := ⟨none, none, none, 0, 0, [], 0⟩

/-- The bytes the parser wrote to a key and a value buffer, from index 0 up to
the first index it did not write. -/
def RawHeader.stored (h : RawHeader) : HttpHeader (List UInt8) :=
  ⟨written bufferSize h.key, written bufferSize h.value⟩

end CeeServe
