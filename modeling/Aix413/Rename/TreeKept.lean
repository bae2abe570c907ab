import Aix413.Rename.Incest

namespace Aix413.Rename.TreeKept

open Relation
open Lib.WaitGraph FileSystem Steps Hierarchy Locks Acting Incest

variable {ι : Type} {fs : Fs}

end Aix413.Rename.TreeKept
