import MmixCompiler.Error

/-! Computations that take fresh temporaries and labels and may fail. A failed one keeps what it
took. -/

namespace MmixCompiler

abbrev Fresh := ExceptT CompileError (StateM Supply)

namespace Fresh

def temp : Fresh Temp := modifyGet Supply.temp

def label : Fresh Label := modifyGet Supply.label

def fail {α : Type} (fault : InternalFault) : Fresh α := throw (.internal fault)

end Fresh
end MmixCompiler
