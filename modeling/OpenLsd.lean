import OpenLsd.Theorems.AddVma
import OpenLsd.Theorems.Backing
import OpenLsd.Theorems.Boot
import OpenLsd.Theorems.BuddyChecks
import OpenLsd.Theorems.Interrupt
import OpenLsd.Theorems.Isolation
import OpenLsd.Theorems.Kill
import OpenLsd.Theorems.Kthread
import OpenLsd.Theorems.Madvise
import OpenLsd.Theorems.MergedForm
import OpenLsd.Theorems.Migrate
import OpenLsd.Theorems.PageRemove
import OpenLsd.Theorems.PidMap
import OpenLsd.Theorems.Ranges
import OpenLsd.Theorems.RbInsert
import OpenLsd.Theorems.RbSafety
import OpenLsd.Theorems.RefCount
import OpenLsd.Theorems.RoundRobin
import OpenLsd.Theorems.SlabZero
import OpenLsd.Theorems.Spinlock
import OpenLsd.Theorems.Swap
import OpenLsd.Theorems.Wait
import OpenLsd.Theorems.Walk
import OpenLsd.Theorems.Yield
