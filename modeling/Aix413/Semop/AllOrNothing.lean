import Aix413.Semop.Operations

namespace Aix413.Semop.AllOrNothing

open Lib.Rollback Sem UndoTable Operations

variable {c : Caller} {sops done ops : List Sembuf} {s t : State}

/-- A process without undo entries, and semaphores of value 0. -/
def fresh : State := ⟨fun _ => ⟨0, 0, 0, 0, [], []⟩, none, [], none⟩

def caller : Caller := ⟨3, 17, 1, true⟩

end Aix413.Semop.AllOrNothing
