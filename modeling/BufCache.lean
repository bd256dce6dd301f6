import BufCache.Basic
import BufCache.Links
import BufCache.Bio
import BufCache.Region
import BufCache.Refcount
import BufCache.Buckets
import BufCache.Calls
import BufCache.Read
import BufCache.After
import BufCache.Locks
import BufCache.Vm.Basic
import BufCache.Vm.Tree
import BufCache.Vm.Walk
import BufCache.Vm.Slots
import BufCache.Vm.Mappages
import BufCache.Vm.Copyout
import BufCache.Vm.Sync
import BufCache.Vm.Unmap
import BufCache.Vm.Uvmalloc
import BufCache.Vm.Uvmcopy
import BufCache.Vm.ProcFree
import BufCache.Vm.Freewalk
import BufCache.Vm.Kvm
import BufCache.Vm.Create
import BufCache.Vm.Vmprint
import BufCache.User.Pingpong
import BufCache.User.Interleavings
