import LinuxFibers.Driver.Ioctl

/-!
# The library's `fib_create`

`Fiber_interface.c` allocates the stack of a new fiber, zeroes it and sends it to the driver with
`FIB_CREATE`.
-/

namespace LinuxFibers

namespace Library

/-- `getpagesize()`. -/
def pageSize : BitVec 64 := 4096

/-- `STACK_SIZE`. -/
def stackSize : Nat := 4096 * 2

/-- What `fib_create` does with the block it allocated: the number of bytes it zeroes from the start of the
block, and the structure that it passes to `ioctl`. -/
structure CreateCall where
  zeroed : BitVec 64
  param : FiberArguments

/-- `memalign` is the block that `posix_memalign` hands out, if it succeeds. The call is `none` where the
function returns -1 before it comes to `ioctl`. -/
def fibCreate (func parameters stackSize : BitVec 64) (memalign : Option (BitVec 64)) : Option CreateCall :=
  let param : FiberArguments :=
    { stackPointer := 0
      startFunctionAddress := func
      startFunctionParameters := parameters
      flsValue := 0
      flsIndex := 0
      stackSize := stackSize
      buffer := 0
      allocSize := 0
      fiberId := -1 }
  if stackSize = 0 then none
  else
    let reminder := stackSize % pageSize
    let stackSize := if reminder ≠ 0 then stackSize + (pageSize - reminder) else stackSize
    memalign.map fun block => { zeroed := stackSize, param := { param with stackPointer := block } }

end Library

end LinuxFibers
