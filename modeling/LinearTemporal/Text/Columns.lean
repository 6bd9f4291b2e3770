/-!
# Columns

Text brought to a least width with blanks.
-/

namespace LinearTemporal
namespace Text

def blanks (count : Nat) : String :=
  String.ofList (List.replicate count ' ')

def padLeft (width : Nat) (text : String) : String :=
  blanks (width - text.length) ++ text

def padRight (width : Nat) (text : String) : String :=
  text ++ blanks (width - text.length)

end Text
end LinearTemporal
